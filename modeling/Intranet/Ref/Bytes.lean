import Intranet.Lib.BTree

/-!
# Digests, keys, time and the canonical encoding

The bottom of the model: `intranet-crypto` and the key types of
`intranet-identity`. Everything that is hashed or signed in the governance
layer is first spelled out as bytes, by the encoder of `enc.rs`; the two
primitives underneath, BLAKE3 and Ed25519 verification, live in third-party
crates and enter as the fields of `Crypto`. No result assumes anything about
them that its statement does not name.

Digests and keys are fixed-width byte strings ordered lexicographically, as
the derived `Ord` of the source orders them; the order is load-bearing, since
"the lower hash wins" is the fork-choice tie-break.
-/

namespace Intranet

/-- A `[u8; n]`. -/
structure Bytes (n : Nat) where
  toList : List UInt8
  length_eq : toList.length = n
deriving DecidableEq

namespace Bytes

variable {n : Nat}

/-- The bytes as numbers, the key of the lexicographic order. -/
def toNats (b : Bytes n) : List Nat := b.toList.map UInt8.toNat

theorem toNats_injective : Function.Injective (toNats (n := n)) := by
  rintro ⟨a, ha⟩ ⟨b, hb⟩ h
  have hab : a = b := List.map_injective_iff.2 (fun _ _ => UInt8.toNat_inj.1) h
  subst hab
  rfl

instance : LinearOrder (Bytes n) := LinearOrder.lift' toNats toNats_injective

/-- Every byte set to `b`: the `[b; n]` of the source. -/
def replicate (n : Nat) (b : UInt8) : Bytes n := ⟨List.replicate n b, by simp⟩

end Bytes

/-- A 32-byte BLAKE3 digest. -/
@[ext]
structure Hash where
  bytes : Bytes 32
deriving DecidableEq

/-- A 32-byte Ed25519 public key. -/
@[ext]
structure VerifyingKey where
  bytes : Bytes 32
deriving DecidableEq

/-- A 64-byte Ed25519 signature. -/
@[ext]
structure Signature where
  bytes : Bytes 64
deriving DecidableEq

/-- The unique identifier of a network. -/
@[ext]
structure NetworkId where
  bytes : Bytes 32
deriving DecidableEq

/-- The identifier of a mutable pointer. -/
@[ext]
structure PointerId where
  bytes : Bytes 32
deriving DecidableEq

/-- The public identifier of a per-network identity. -/
@[ext]
structure PerNetworkIdentityId where
  key : VerifyingKey
deriving DecidableEq

/-- The public key of a device, scoped to one network. -/
@[ext]
structure DevicePublicKey where
  key : VerifyingKey
deriving DecidableEq

instance : LinearOrder Hash :=
  LinearOrder.lift' Hash.bytes fun _ _ => Hash.ext

instance : LinearOrder VerifyingKey :=
  LinearOrder.lift' VerifyingKey.bytes fun _ _ => VerifyingKey.ext

instance : LinearOrder PointerId :=
  LinearOrder.lift' PointerId.bytes fun _ _ => PointerId.ext

instance : LinearOrder PerNetworkIdentityId :=
  LinearOrder.lift' PerNetworkIdentityId.key fun _ _ => PerNetworkIdentityId.ext

instance : LinearOrder DevicePublicKey :=
  LinearOrder.lift' DevicePublicKey.key fun _ _ => DevicePublicKey.ext

/-- `to_hex`: two lowercase digits a byte. -/
def toHex (bytes : List UInt8) : String :=
  String.ofList (bytes.flatMap fun b =>
    [Nat.digitChar (b.toNat / 16), Nat.digitChar (b.toNat % 16)])

/-- The first 8 hex characters, as every `short()` of the source renders. -/
def Bytes.short {n : Nat} (b : Bytes n) : String := toHex (b.toList.take 4)

def PerNetworkIdentityId.short (id : PerNetworkIdentityId) : String :=
  id.key.bytes.short

def NetworkId.short (network : NetworkId) : String := network.bytes.short

def Hash.toString (h : Hash) : String := toHex h.bytes.toList

/-- `Hash::ZERO`. -/
def Hash.zero : Hash := ⟨Bytes.replicate 32 0⟩

/-! ## Time

Milliseconds in an `i64`. `millisSince` subtracts with the machine's
operator, which wraps in a release build (a debug build aborts instead);
`plusMillis` saturates, as `saturating_add` does. -/

/-- A point in time, as milliseconds since the Unix epoch. -/
structure Timestamp where
  millis : Int64
deriving DecidableEq

def Timestamp.millisSince (t earlier : Timestamp) : Int64 :=
  t.millis - earlier.millis

def Timestamp.plusMillis (t : Timestamp) (millis : Int64) : Timestamp :=
  ⟨Int64.ofInt (max Int64.minValue.toInt
    (min Int64.maxValue.toInt (t.millis.toInt + millis.toInt)))⟩

/-! ## The canonical encoding

`Enc` is a builder that only ever appends, so a value's encoding is the
concatenation of its fields' encodings and the builder itself disappears. -/

namespace Enc

/-- The low `width` bytes of `n`, most significant first. -/
def bigEndian : Nat → Nat → List UInt8
  | 0, _ => []
  | width + 1, n => UInt8.ofNat (n / 256 ^ width) :: bigEndian width n

theorem length_bigEndian (width n : ℕ) : (bigEndian width n).length = width := by
  induction width with
  | zero => rfl
  | succ width ih => rw [bigEndian, List.length_cons, ih]

def u8 (v : UInt8) : List UInt8 := [v]

def u32 (v : UInt32) : List UInt8 := bigEndian 4 v.toNat

def u64 (v : UInt64) : List UInt8 := bigEndian 8 v.toNat

def i64 (v : Int64) : List UInt8 := u64 v.toUInt64

def bool (v : Bool) : List UInt8 := u8 (if v then 1 else 0)

/-- A variant discriminant. -/
def variant (discriminant : UInt8) : List UInt8 := u8 discriminant

/-- A length-prefixed byte string. -/
def bytes (b : List UInt8) : List UInt8 := u64 (UInt64.ofNat b.length) ++ b

/-- A length-prefixed UTF-8 string. -/
def str (s : String) : List UInt8 := bytes s.toByteArray.data.toList

/-- A fixed-width array, unframed. -/
def fixed {n : Nat} (b : Bytes n) : List UInt8 := b.toList

def option {α : Type} (v : Option α) (f : α → List UInt8) : List UInt8 :=
  match v with
  | none => u8 0
  | some inner => u8 1 ++ f inner

/-- A count-prefixed sequence. -/
def seq {α : Type} (items : List α) (f : α → List UInt8) : List UInt8 :=
  u64 (UInt64.ofNat items.length) ++ items.flatMap f

/-- The domain-separation tag an encoding starts with. -/
def domain (tag : String) : List UInt8 := str tag

end Enc

def PerNetworkIdentityId.encode (id : PerNetworkIdentityId) : List UInt8 :=
  Enc.fixed id.key.bytes

def DevicePublicKey.encode (device : DevicePublicKey) : List UInt8 :=
  Enc.fixed device.key.bytes

def NetworkId.encode (network : NetworkId) : List UInt8 :=
  Enc.fixed network.bytes

/-! ## The primitives -/

/-- The two primitives the source takes from third-party crates:
`blake3::hash`, and whether `VerifyingKey::verify` answers `Ok`. -/
structure Crypto where
  hashBytes : List UInt8 → Hash
  verify : VerifyingKey → List UInt8 → Signature → Bool

/-- One level of the Merkle tree: pairs are hashed under the node domain, an
odd node is promoted unchanged. -/
def merkleLevel (C : Crypto) : List Hash → List Hash
  | a :: b :: rest =>
      C.hashBytes (Enc.domain "intranet.merkle.node.v1" ++
        Enc.fixed a.bytes ++ Enc.fixed b.bytes) :: merkleLevel C rest
  | rest => rest

/-- The level loop of `merkle_root`. A level at least halves, so the leaf
count the caller passes is more fuel than the loop can spend. -/
def merkleLoop (C : Crypto) : Nat → List Hash → Hash
  | 0, level => level.headD Hash.zero
  | fuel + 1, level =>
      if 1 < level.length then merkleLoop C fuel (merkleLevel C level)
      else level.headD Hash.zero

def merkleRoot (C : Crypto) (leaves : List Hash) : Hash :=
  merkleLoop C leaves.length leaves

end Intranet
