import Intranet.Lib.Codec
import Intranet.Ref.Bytes

/-!
# The decoder

`dec.rs`, method by method the mirror of `Enc`. The source's `Dec` is a slice
and a position; what a method can see of them is the bytes from the position
on, so those are the state of a `Reader` here. `E: From<DecodeError>` is the
class `FromDecodeError`: a caller with errors of its own says how it wraps
these.
-/

namespace Intranet

/-- Why decoding failed. -/
inductive DecodeError where
  | unexpectedEnd (needed remaining : ℕ)
  | implausibleLength (claimed : UInt64) (remaining : ℕ)
  | unknownVariant (typeName : String) (discriminant : UInt8)
  | invalidBool (byte : UInt8)
  | invalidUtf8
  | wrongDomain (expected : String)
  | trailingBytes (remaining : ℕ)
deriving DecidableEq

/-- An error type that the framing errors embed into. -/
class FromDecodeError (ε : Type) where
  ofDecodeError : DecodeError → ε

instance : FromDecodeError DecodeError := ⟨id⟩

namespace Dec

variable {ε α : Type} [FromDecodeError ε]

def fail (err : DecodeError) : Reader ε α :=
  throw (FromDecodeError.ofDecodeError err)

/-- The next `n` bytes. -/
def take (n : ℕ) : Reader ε (Bytes n) := fun i =>
  if h : i.length < n then
    .error (FromDecodeError.ofDecodeError (.unexpectedEnd n i.length))
  else
    .ok (⟨i.take n, by rw [List.length_take]; omega⟩, i.drop n)

/-- A number from its bytes, most significant first. -/
def ofBigEndian : List UInt8 → ℕ
  | [] => 0
  | byte :: rest => byte.toNat * 256 ^ rest.length + ofBigEndian rest

def u8 : Reader ε UInt8 := do
  let b ← take 1
  return b.toList.headD 0

def u32 : Reader ε UInt32 := do
  let b ← take 4
  return UInt32.ofNat (ofBigEndian b.toList)

def u64 : Reader ε UInt64 := do
  let b ← take 8
  return UInt64.ofNat (ofBigEndian b.toList)

def i64 : Reader ε Int64 := do
  let b ← take 8
  return (UInt64.ofNat (ofBigEndian b.toList)).toInt64

/-- A boolean, any byte but 0 and 1 refused. -/
def bool : Reader ε Bool := do
  match ← u8 with
  | 0 => return false
  | 1 => return true
  | other => fail (.invalidBool other)

/-- A variant discriminant. -/
def variant : Reader ε UInt8 := u8

/-- How many bytes remain unread. -/
def remaining : Reader ε ℕ := fun i => .ok (i.length, i)

/-- A length claimed by the input, checked against what is present. -/
def length : Reader ε ℕ := do
  let claimed ← u64
  let left ← remaining
  Reader.check (claimed.toNat ≤ left)
    (FromDecodeError.ofDecodeError (.implausibleLength claimed left))
  return claimed.toNat

/-- A length-prefixed byte string. -/
def bytes : Reader ε (List UInt8) := do
  let len ← length
  let b ← take len
  return b.toList

/-- A length-prefixed UTF-8 string. -/
def str : Reader ε String := do
  let b ← bytes
  match String.fromUTF8? ⟨b.toArray⟩ with
  | some s => return s
  | none => fail .invalidUtf8

/-- A fixed-width array, unframed. -/
def fixed (n : ℕ) : Reader ε (Bytes n) := take n

def option (p : Reader ε α) : Reader ε (Option α) := do
  match ← u8 with
  | 0 => return none
  | 1 => do
      let inner ← p
      return some inner
  | other => fail (.invalidBool other)

/-- A count-prefixed sequence. -/
def seq (p : Reader ε α) : Reader ε (List α) := do
  let count ← length
  Reader.times p count

/-- Requires a matching domain-separation tag. -/
def domain (tag : String) : Reader ε Unit := do
  let found ← str
  Reader.check (found = tag) (FromDecodeError.ofDecodeError (.wrongDomain tag))

/-- Requires the input to be fully consumed. -/
def finish : Reader ε Unit := do
  let left ← remaining
  Reader.check (left = 0) (FromDecodeError.ofDecodeError (.trailingBytes left))

/-- Reads one value from the start of `bytes`. -/
def decode (p : Reader ε α) (bytes : List UInt8) : Except ε α :=
  (p bytes).map Prod.fst

end Dec

end Intranet
