import Intranet.Ref.Dec
import Intranet.Ref.Keying
import Intranet.Ref.Keyring

/-!
# Epoch key delivery on the wire

`wire.rs` of the epoch crate. The current epoch key does not travel: a joiner
derives it from the Welcome. Superseded keys do, under the full-history
policy, each sealed to the recipient with a nonce hashed out of the rotation
and the key.
-/

namespace Intranet

/-- Why a message could not be turned into a value. -/
inductive EpochWireError where
  | malformed (err : DecodeError)
  | invalidKey
  | badSignature
  | tooLarge (what : String) (got limit : ℕ)
  | unknownVariant (what : String) (got : UInt8)
deriving DecidableEq

instance : FromDecodeError EpochWireError := ⟨.malformed⟩

/-- `MAX_WELCOME_BYTES`. -/
def maxWelcomeBytes : ℕ := 4 * 1024 * 1024

/-- `MAX_HISTORY_KEYS`. -/
def maxHistoryKeys : ℕ := 1024

/-- A request to be keyed into the network, its signature verified when it
was decoded. -/
structure EpochKeyRequest where
  requester : PerNetworkIdentityId
  keyPackage : List UInt8
  signature : Signature
deriving DecidableEq

/-- Why a responder would not key a requester in. -/
inductive KeyDeliveryRefusal where
  | noReadContent
  | cannotEvaluate
  | identityMismatch
  | noGroup
deriving DecidableEq

/-- The byte a refusal is written as. -/
def KeyDeliveryRefusal.code : KeyDeliveryRefusal → UInt8
  | noReadContent => 0
  | cannotEvaluate => 1
  | identityMismatch => 2
  | noGroup => 3

/-- One superseded epoch key, sealed to a recipient. -/
structure SealedEpochKey where
  rotationRef : Hash
  blob : List UInt8
deriving DecidableEq

/-- A response to a key delivery request. -/
inductive EpochKeyResponse where
  | welcome (welcome : List UInt8) (rotationRef : Hash)
      (history : List SealedEpochKey)
  | refused (reason : KeyDeliveryRefusal)
deriving DecidableEq

namespace EpochKeyResponse

def wireDomain : String := "intranet.wire.epoch-key-response.v1"

def putSealed (key : SealedEpochKey) : List UInt8 :=
  Enc.fixed key.rotationRef.bytes ++ Enc.bytes key.blob

def put : EpochKeyResponse → List UInt8
  | welcome bytes rotationRef history =>
      Enc.variant 0 ++ Enc.bytes bytes ++ Enc.fixed rotationRef.bytes ++
        Enc.seq history putSealed
  | refused reason => Enc.variant 1 ++ Enc.u8 reason.code

def encode (r : EpochKeyResponse) : List UInt8 :=
  Enc.domain wireDomain ++ r.put

def getSealed : Reader EpochWireError SealedEpochKey := do
  let rotationRef ← Dec.fixed 32
  let blob ← Dec.bytes
  return ⟨⟨rotationRef⟩, blob⟩

/-- A byte string up to a ceiling. -/
def bounded (what : String) (limit : ℕ) : Reader EpochWireError (List UInt8) := do
  let b ← Dec.bytes
  Reader.check (b.length ≤ limit) (.tooLarge what b.length limit)
  return b

def getWelcome : Reader EpochWireError EpochKeyResponse := do
  let bytes ← bounded "welcome" maxWelcomeBytes
  let rotationRef ← Dec.fixed 32
  let history ← Dec.seq getSealed
  Reader.check (history.length ≤ maxHistoryKeys)
    (.tooLarge "history" history.length maxHistoryKeys)
  return .welcome bytes ⟨rotationRef⟩ history

def getRefusal : Reader EpochWireError KeyDeliveryRefusal := do
  match ← Dec.u8 with
  | 0 => return .noReadContent
  | 1 => return .cannotEvaluate
  | 2 => return .identityMismatch
  | 3 => return .noGroup
  | got => throw (.unknownVariant "KeyDeliveryRefusal" got)

def get : Reader EpochWireError EpochKeyResponse := do
  match ← Dec.variant with
  | 0 => getWelcome
  | 1 => do
      let reason ← getRefusal
      return .refused reason
  | got => throw (.unknownVariant "EpochKeyResponse" got)

/-- Decodes a response. -/
def decode (bytes : List UInt8) : Except EpochWireError EpochKeyResponse :=
  Dec.decode (do
    Dec.domain wireDomain
    let response ← get
    Dec.finish
    return response) bytes

end EpochKeyResponse

/-! ## Requests -/

namespace EpochKeyRequest

/-- `MAX_KEY_PACKAGE_BYTES`. -/
def maxKeyPackageBytes : ℕ := 64 * 1024

/-- What the requester signs. -/
def payload (requester : PerNetworkIdentityId) (keyPackage : List UInt8) :
    List UInt8 :=
  Enc.domain "intranet.epoch-key-request.v1" ++ requester.encode ++
    Enc.bytes keyPackage

/-- Builds and signs a request. -/
def create {C : Crypto} {validKey : Bytes 32 → Bool}
    (requester : PerNetworkIdentity C validKey) (keyPackage : List UInt8) :
    EpochKeyRequest :=
  ⟨requester.id, keyPackage, requester.sign (payload requester.id keyPackage)⟩

/-- Verifies that the named requester made this request. -/
def verify (C : Crypto) (r : EpochKeyRequest) : Except EpochWireError Unit :=
  if C.verify r.requester.key (payload r.requester r.keyPackage) r.signature
  then .ok ()
  else .error .badSignature

def wireDomain : String := "intranet.wire.epoch-key-request.v1"

def put (r : EpochKeyRequest) : List UInt8 :=
  r.requester.encode ++ Enc.bytes r.keyPackage ++ Enc.fixed r.signature.bytes

def encode (r : EpochKeyRequest) : List UInt8 :=
  Enc.domain wireDomain ++ r.put

def getIdentity (validKey : Bytes 32 → Bool) :
    Reader EpochWireError PerNetworkIdentityId := do
  let b ← Dec.fixed 32
  Reader.check (validKey b = true) .invalidKey
  return ⟨⟨b⟩⟩

def get (validKey : Bytes 32 → Bool) :
    Reader EpochWireError EpochKeyRequest := do
  let requester ← getIdentity validKey
  let keyPackage ← EpochKeyResponse.bounded "key package" maxKeyPackageBytes
  let b ← Dec.fixed 64
  return ⟨requester, keyPackage, ⟨b⟩⟩

/-- Decodes a request and verifies its signature. -/
def decode (C : Crypto) (validKey : Bytes 32 → Bool) (bytes : List UInt8) :
    Except EpochWireError EpochKeyRequest :=
  Dec.decode (do
    Dec.domain wireDomain
    let request ← get validKey
    Dec.finish
    Reader.ofExcept (request.verify C)
    return request) bytes

end EpochKeyRequest

/-! ## Sealing history -/

namespace EpochSeal

/-- `SEAL_DOMAIN`. -/
def domain : String := "intranet.epoch-key-seal.v1"

def sealingKey (C : Crypto) (secret : Bytes 32) : Bytes 32 :=
  (C.hashBytes (Enc.domain domain ++ Enc.fixed secret)).bytes

/-- The nonce binds the plaintext to the rotation it belongs to. -/
def nonce (A : Aead) (key : Bytes 32) (rotationRef : Hash)
    (plaintext : List UInt8) : Bytes 24 :=
  (A.keyedHash key (Enc.domain domain ++ Enc.fixed rotationRef.bytes ++
    Enc.bytes plaintext)).nonce

/-- `seal`: the nonce in front of the ciphertext. -/
def sealKey (A : Aead) (key : Bytes 32) (rotationRef : Hash)
    (plaintext : List UInt8) : List UInt8 :=
  let nonce := nonce A key rotationRef plaintext
  nonce.toList ++ A.encrypt key nonce plaintext

/-- What is not truncated has room for a nonce. -/
theorem room_for_nonce {blob : List UInt8} (h : ¬blob.length ≤ 24) :
    24 ≤ blob.length :=
  (Nat.lt_of_not_le h).le

/-- `open`. -/
def openKey (A : Aead) (key : Bytes 32) (rotationRef : Hash)
    (blob : List UInt8) : Except EpochError (List UInt8) :=
  if h : blob.length ≤ 24 then
    .error (.mls "sealed epoch key is truncated")
  else
    let found := Bytes.ofTake 24 blob (room_for_nonce h)
    match A.decrypt key found (blob.drop 24) with
    | none => .error (.mls "sealed epoch key failed authentication")
    | some plaintext =>
        if nonce A key rotationRef plaintext ≠ found then
          .error (.mls "sealed epoch key was sealed for a different rotation")
        else .ok plaintext

end EpochSeal

/-- Seals superseded epoch keys for one recipient. Sealing with the cipher
itself does not fail on keys of 32 bytes. -/
def sealHistory (C : Crypto) (A : Aead) (validKey : Bytes 32 → Bool)
    (dh : DiffieHellman) (sender recipient : PerNetworkIdentityId)
    (keys : List (Hash × EpochKey)) : Except EpochError (List SealedEpochKey) :=
  match agree C validKey dh sender recipient with
  | none => .error (.mls "key agreement")
  | some secret =>
      .ok (keys.map fun k => ⟨k.1, EpochSeal.sealKey A
        (EpochSeal.sealingKey C secret) k.1 k.2.bytes.toList⟩)

/-- Opens one sealed key. -/
def openSealed (A : Aead) (sealing : Bytes 32) (entry : SealedEpochKey) :
    Except EpochError (Hash × EpochKey) :=
  match EpochSeal.openKey A sealing entry.rotationRef entry.blob with
  | .error err => .error err
  | .ok opened =>
      if h : opened.length = 32 then .ok (entry.rotationRef, ⟨⟨opened, h⟩⟩)
      else .error (.mls "sealed epoch key was not 32 bytes")

/-- Opens epoch keys sealed by `sealHistory`. -/
def openHistory (C : Crypto) (A : Aead) (validKey : Bytes 32 → Bool)
    (dh : DiffieHellman) (recipient sender : PerNetworkIdentityId)
    (sealed : List SealedEpochKey) :
    Except EpochError (List (Hash × EpochKey)) :=
  match agree C validKey dh recipient sender with
  | none => .error (.mls "key agreement")
  | some secret => sealed.mapM (openSealed A (EpochSeal.sealingKey C secret))

end Intranet
