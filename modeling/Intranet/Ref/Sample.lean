import Intranet.Ref.Entry

/-!
# A concrete pair of primitives

The theorems quantify over `Crypto`. Where one is applied to a concrete log,
something has to stand in for BLAKE3 and Ed25519, and `Crypto.sample` does:
a signature carries the signer's key and a nonce, it verifies under that key,
and the digest of a byte string is its last 32 bytes. The hash of an entry is
then the nonce of its signature, so a log over these primitives can be
written down with the hashes one wants.
-/

namespace Intranet

/-- A number as `width` bytes, most significant first. -/
def Bytes.ofNat (width n : ℕ) : Bytes width :=
  ⟨Enc.bigEndian width n, Enc.length_bigEndian width n⟩

/-- The last 32 bytes, after padding on the left. -/
def last32 (b : List UInt8) : Bytes 32 :=
  ⟨(List.replicate 32 0 ++ b).drop b.length, by
    rw [List.length_drop, List.length_append, List.length_replicate]
    omega⟩

def Crypto.sample : Crypto where
  hashBytes b := ⟨last32 b⟩
  verify key _ signature :=
    decide (signature.bytes.toList.take 32 = key.bytes.toList)

namespace Sample

def identity (n : ℕ) : PerNetworkIdentityId := ⟨⟨Bytes.ofNat 32 n⟩⟩

def hash (n : ℕ) : Hash := ⟨Bytes.ofNat 32 n⟩

def network : NetworkId := ⟨Bytes.replicate 32 7⟩

/-- The signature of `signer`: its key, then the nonce. -/
def signature (signer nonce : ℕ) : Signature :=
  ⟨⟨(Bytes.ofNat 32 signer).toList ++ (Bytes.ofNat 32 nonce).toList, by
    rw [List.length_append, Bytes.length_eq, Bytes.length_eq]⟩⟩

/-- An entry signed by `author`, with `nonce` for its hash. -/
def entry (nonce : ℕ) (parent : Option ℕ) (millis : Int64) (author : ℕ)
    (body : EntryBody) : LogEntry :=
  ⟨parent.map hash, ⟨millis⟩, identity author, body, signature author nonce⟩

/-- A founding entry under `policy`, with hash `nonce`. -/
def genesis (nonce : ℕ) (policy : NetworkPolicy)
    (everyoneCapabilities : List Capability) : LogEntry :=
  entry nonce none 0 1 (.genesis network policy
    (Std.ExtTreeSet.ofList everyoneCapabilities compare))

/-- Admits identity `n` to `everyone`. -/
def admits (n : ℕ) : EntryBody :=
  .membershipChange GroupId.everyone (identity n) (.add none)

/-- The default policy under `MemberVote`. -/
def votePolicy (electorate : GroupId) (quorum : UInt32) : NetworkPolicy :=
  { NetworkPolicy.conservativeDefault with
    governanceModel := .memberVote electorate quorum 1000 }

/-- A vote on `body` among `Founders`, whose one member is identity 1. -/
def founderProposal (body : EntryBody) (snapshot : ℕ) : VoteProposal :=
  ⟨body.actionHash .sample, GroupId.founders,
    Std.ExtTreeSet.ofList [identity 1] compare, hash snapshot, ⟨100⟩, 1⟩

/-- Identity 1's approving ballot, and nothing else. -/
def founderCertificate (proposal : VoteProposal) : QuorumCertificate :=
  let ballot : Ballot :=
    ⟨proposal.voteId .sample, identity 1, true, ⟨50⟩, signature 1 1⟩
  ⟨proposal.voteId .sample, [ballot],
    merkleRoot .sample [ballot.hash .sample]⟩

/-- Identity 1 proposes `body` and closes the vote, in the entries with
hashes `first` and `first + 1`. -/
def founderVote (first : ℕ) (body : EntryBody) : List LogEntry :=
  let proposal := founderProposal body (first - 1)
  [entry first (some (first - 1)) (Int64.ofNat first) 1 (.voteProposed proposal),
    entry (first + 1) (some first) (Int64.ofNat (first + 1)) 1
      (.voteOutcome (founderCertificate proposal))]

theorem last32_append (front : List UInt8) (b : Bytes 32) :
    last32 (front ++ b.toList) = b := by
  have hlen : (List.replicate 32 (0 : UInt8) ++ front).length =
      (front ++ b.toList).length := by
    rw [List.length_append, List.length_append, List.length_replicate,
      b.length_eq]
    omega
  rcases b with ⟨b, hb⟩
  simp only [last32, Bytes.mk.injEq]
  rw [← List.append_assoc, List.drop_left' hlen]

theorem bigEndian_mod (width m n : ℕ)
    (h : Enc.bigEndian width m = Enc.bigEndian width n) :
    m % 256 ^ width = n % 256 ^ width := by
  induction width with
  | zero => rw [Nat.pow_zero, Nat.mod_one, Nat.mod_one]
  | succ width ih =>
      rw [Enc.bigEndian, Enc.bigEndian, List.cons.injEq] at h
      obtain ⟨hhead, htail⟩ := h
      have hdigit := congrArg UInt8.toNat hhead
      rw [UInt8.toNat_ofNat', UInt8.toNat_ofNat'] at hdigit
      rw [Nat.pow_succ, Nat.mod_mul, Nat.mod_mul, ih htail]
      exact congrArg (fun d => n % 256 ^ width + 256 ^ width * d) hdigit

/-- Numbers that fit into 32 bytes have different hashes. -/
theorem hash_inj {m n : ℕ} (hm : m < 256 ^ 32) (hn : n < 256 ^ 32)
    (h : hash m = hash n) : m = n := by
  have hbytes := bigEndian_mod 32 m n
    (congrArg (fun x : Hash => x.bytes.toList) h)
  rwa [Nat.mod_eq_of_lt hm, Nat.mod_eq_of_lt hn] at hbytes

/-- The nonce of an entry's signature is the entry's hash. -/
theorem hash_entry (nonce : ℕ) (parent : Option ℕ) (millis : Int64)
    (author : ℕ) (body : EntryBody) :
    (entry nonce parent millis author body).hash .sample = hash nonce := by
  simp only [LogEntry.hash, Crypto.sample, entry, signature, Enc.fixed,
    ← List.append_assoc, last32_append, hash]

/-- A signature verifies under its signer's key, whatever the nonce. -/
theorem verify_signature (signer nonce : ℕ) (payload : List UInt8) :
    Crypto.sample.verify (identity signer).key payload
      (signature signer nonce) = true :=
  decide_eq_true (List.take_left' (Bytes.length_eq _))

/-- So does the one with nonce 0, which most samples carry. -/
theorem verify_first (signer : ℕ) (payload : List UInt8) :
    Crypto.sample.verify (identity signer).key payload
      (signature signer 0) = true :=
  verify_signature signer 0 payload

theorem verifySignature_entry (nonce : ℕ) (parent : Option ℕ) (millis : Int64)
    (author : ℕ) (body : EntryBody) :
    (entry nonce parent millis author body).verifySignature .sample =
      .ok () :=
  if_pos (verify_signature author nonce _)

end Sample

end Intranet
