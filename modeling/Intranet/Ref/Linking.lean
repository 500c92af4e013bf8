import Intranet.Ref.Dec
import Intranet.Ref.Pointer

/-!
# Proofs of common ownership

The identity crate's `linking.rs`. Nobody can tell that two per-network
identities are one person, unless the person says so: a statement that names
both, signed by both. The sides are put in order when a proof is made. The
decoder takes them in the order they come in.
-/

namespace Intranet

/-- What can be wrong with a proof, under the name of what it was read as. -/
inductive IdentityError where
  | malformed (what : String) (source : DecodeError)
  | invalidKey (what : String)
  | badSignature (what : String)
deriving DecidableEq

instance : FromDecodeError IdentityError :=
  ⟨.malformed "common ownership proof"⟩

/-- One side of a common-ownership claim. -/
structure Side where
  network : NetworkId
  identity : PerNetworkIdentityId
deriving DecidableEq

namespace Side

def put (side : Side) : List UInt8 :=
  side.network.encode ++ side.identity.encode

def get (validKey : Bytes 32 → Bool) : Reader IdentityError Side := do
  let network ← Dec.fixed 32
  let key ← Dec.fixed 32
  Reader.check (validKey key = true) (.invalidKey "common ownership proof")
  return ⟨⟨network⟩, ⟨⟨key⟩⟩⟩

/-- The derived order: by network, then by identity. -/
def le (a b : Side) : Bool :=
  decide (a.network.bytes < b.network.bytes ∨
    a.network = b.network ∧ a.identity ≤ b.identity)

end Side

/-- A signed statement that two per-network identities are one person. -/
structure CommonOwnershipProof where
  first : Side
  second : Side
  firstSignature : Signature
  secondSignature : Signature
deriving DecidableEq

namespace CommonOwnershipProof

/-- What both sides sign. -/
def payload (first second : Side) : List UInt8 :=
  Enc.domain "intranet.common-ownership.v1" ++ first.put ++ second.put

/-- Creates a proof linking two identities, each of the network beside it. -/
def create {C : Crypto} {validKey : Bytes 32 → Bool} (networkA : NetworkId)
    (a : PerNetworkIdentity C validKey) (networkB : NetworkId)
    (b : PerNetworkIdentity C validKey) : CommonOwnershipProof :=
  let sideA : Side := ⟨networkA, a.id⟩
  let sideB : Side := ⟨networkB, b.id⟩
  if sideA.le sideB then
    ⟨sideA, sideB, a.sign (payload sideA sideB), b.sign (payload sideA sideB)⟩
  else
    ⟨sideB, sideA, b.sign (payload sideB sideA), a.sign (payload sideB sideA)⟩

/-- Verifies that both named identities signed this statement. -/
def verify (C : Crypto) (p : CommonOwnershipProof) :
    Except IdentityError Unit :=
  let payload := payload p.first p.second
  if C.verify p.first.identity.key payload p.firstSignature then
    if C.verify p.second.identity.key payload p.secondSignature then .ok ()
    else .error (.badSignature "common ownership proof (second side)")
  else .error (.badSignature "common ownership proof (first side)")

/-- The two pairs this proof links. -/
def linked (p : CommonOwnershipProof) :
    (NetworkId × PerNetworkIdentityId) × (NetworkId × PerNetworkIdentityId) :=
  ((p.first.network, p.first.identity), (p.second.network, p.second.identity))

def wireDomain : String := "intranet.wire.common-ownership.v1"

def put (p : CommonOwnershipProof) : List UInt8 :=
  p.first.put ++ p.second.put ++ Enc.fixed p.firstSignature.bytes ++
    Enc.fixed p.secondSignature.bytes

def encode (p : CommonOwnershipProof) : List UInt8 :=
  Enc.domain wireDomain ++ p.put

def get (validKey : Bytes 32 → Bool) :
    Reader IdentityError CommonOwnershipProof := do
  let first ← Side.get validKey
  let second ← Side.get validKey
  let b ← Dec.fixed 64
  let b' ← Dec.fixed 64
  return ⟨first, second, ⟨b⟩, ⟨b'⟩⟩

/-- Decodes a proof and verifies both signatures. -/
def decode (C : Crypto) (validKey : Bytes 32 → Bool) (bytes : List UInt8) :
    Except IdentityError CommonOwnershipProof :=
  Dec.decode (do
    Dec.domain wireDomain
    let proof ← get validKey
    Dec.finish
    Reader.ofExcept (proof.verify C)
    return proof) bytes

end CommonOwnershipProof

end Intranet
