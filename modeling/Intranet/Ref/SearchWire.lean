import Intranet.Ref.Dec
import Intranet.Ref.Search

/-!
# Postings as bytes

`wire.rs` of the search crate. The decoder puts a ceiling on the number of
terms, collects them into a map again and verifies the signature over it.
-/

namespace Intranet

def maxTermsPerPosting : ℕ := 4096

/-- Why a posting could not be turned into a value. -/
inductive PostingWireError where
  | malformed (err : DecodeError)
  | invalidKey
  | badSignature
  | tooManyTerms (count : ℕ)
deriving DecidableEq

instance : FromDecodeError PostingWireError := ⟨.malformed⟩

namespace Posting

def wireDomain : String := "intranet.wire.posting.v1"

def putTerm (entry : Term × TermStats) : List UInt8 :=
  Enc.str entry.1.text ++ Enc.u32 entry.2.frequency ++
    Enc.u8 entry.2.bestField.discriminant

/-- `encode_posting`. -/
def encode (p : Posting) : List UInt8 :=
  Enc.domain wireDomain ++ (Enc.fixed p.pointerId.bytes ++
    Enc.seq p.terms.toList putTerm ++ Enc.i64 p.publishedAt.millis ++
    p.publisherIdentity.encode ++ Enc.fixed p.signature.bytes)

def getField : Reader PostingWireError Field := do
  match ← Dec.u8 with
  | 0 => return .title
  | 1 => return .tag
  | 2 => return .description
  | 3 => return .body
  | other => Dec.fail (.unknownVariant "Field" other)

def getTerm : Reader PostingWireError (Term × TermStats) := do
  let text ← Dec.str
  let frequency ← Dec.u32
  let bestField ← getField
  return (⟨text⟩, ⟨frequency, bestField⟩)

/-- The terms, no more of them than the ceiling. -/
def getTerms : Reader PostingWireError (BTreeMap Term TermStats) := do
  let pairs ← Dec.seq getTerm
  Reader.check (pairs.length ≤ maxTermsPerPosting) (.tooManyTerms pairs.length)
  return Std.ExtTreeMap.ofList pairs compare

def get (validKey : Bytes 32 → Bool) : Reader PostingWireError Posting := do
  let pointerId ← Dec.fixed 32
  let terms ← getTerms
  let publishedAt ← Dec.i64
  let key ← Dec.fixed 32
  Reader.check (validKey key = true) .invalidKey
  let signature ← Dec.fixed 64
  return ⟨⟨pointerId⟩, terms, ⟨publishedAt⟩, ⟨⟨key⟩⟩, ⟨signature⟩⟩

/-- The signature check, under the wire's error. -/
def verifyWire (C : Crypto) (p : Posting) : Except PostingWireError Unit :=
  match p.verify C with
  | .ok () => .ok ()
  | .error _ => .error .badSignature

/-- `decode_posting`. -/
def decode (C : Crypto) (validKey : Bytes 32 → Bool) (bytes : List UInt8) :
    Except PostingWireError Posting :=
  Dec.decode (do
    Dec.domain wireDomain
    let posting ← get validKey
    Dec.finish
    Reader.ofExcept (posting.verifyWire C)
    return posting) bytes

end Posting

end Intranet
