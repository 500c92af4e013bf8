import Intranet.Lib.Merkle
import Intranet.Proofs.Encoding

/-!
# A Merkle root binds its leaves

The level loop of `merkle_root` is `Merkle.level` over the hash of a node. It
ends on every list, before its fuel does, with one hash left if there was any.
If no two of the node encodings it hashed collide and none of their hashes is
a leaf, the root tells the list of leaves (`merkle_root_binds`).

The leaves of a certificate are ballot hashes, and a ballot is hashed under a
tag of its own. So there the second condition is a case of the first
(`ballots_bound`).
-/

namespace Intranet

/-- What is hashed for a node. -/
def merkleNode (p : Hash × Hash) : List UInt8 :=
  Enc.domain "intranet.merkle.node.v1" ++ Enc.fixed p.1.bytes ++
    Enc.fixed p.2.bytes

/-- The hash of a node. -/
def merkleJoin (C : Crypto) (left right : Hash) : Hash :=
  C.hashBytes (merkleNode (left, right))

/-- The node encodings hashed on the way to a root. -/
def merkleHashed (C : Crypto) (leaves : List Hash) : List (List UInt8) :=
  (Merkle.combined (merkleJoin C) leaves.length leaves).map merkleNode

variable {C : Crypto}

theorem merkleNode_injective : Function.Injective merkleNode := by
  rintro ⟨⟨a, ha⟩, ⟨b, hb⟩⟩ ⟨⟨c, hc⟩, ⟨d, hd⟩⟩ h
  simp only [merkleNode, Enc.fixed, List.append_assoc] at h
  have hrest := List.append_cancel_left h
  obtain ⟨hac, hbd⟩ := List.append_inj hrest (by rw [ha, hc])
  subst hac
  subst hbd
  rfl

theorem merkleLevel_eq (C : Crypto) (leaves : List Hash) :
    merkleLevel C leaves = Merkle.level (merkleJoin C) leaves := by
  induction leaves using List.twoStepInduction with
  | nil => rfl
  | singleton a => rfl
  | cons_cons a b leaves ih _ =>
      rw [merkleLevel, Merkle.level, ih]
      rfl

/-- The loop goes up as often as it has fuel. -/
theorem merkleLoop_eq (C : Crypto) (fuel : ℕ) (level : List Hash) :
    merkleLoop C fuel level =
      ((Merkle.level (merkleJoin C))^[fuel] level).headD Hash.zero := by
  induction fuel generalizing level with
  | zero => rfl
  | succ fuel ih =>
      rw [merkleLoop]
      split
      · rw [ih, merkleLevel_eq, Function.iterate_succ_apply]
      · next hshort =>
        rw [Merkle.iterate_of_short (Nat.not_lt.1 hshort)]

/-- The loop ends on level `n`, and the head of it is the root. -/
def MerkleEnds (C : Crypto) (leaves : List Hash) (n : ℕ) : Prop :=
  (∀ m < n, 1 < ((merkleLevel C)^[m] leaves).length) ∧
    ((merkleLevel C)^[n] leaves).length ≤ 1 ∧
    merkleRoot C leaves = ((merkleLevel C)^[n] leaves).headD Hash.zero ∧
    (leaves ≠ [] → (merkleLevel C)^[n] leaves = [merkleRoot C leaves])

theorem merkleRoot_ends (C : Crypto) (leaves : List Hash) :
    ∃ n ≤ leaves.length, MerkleEnds C leaves n := by
  have hlevel : merkleLevel C = Merkle.level (merkleJoin C) :=
    funext (merkleLevel_eq C)
  obtain ⟨n, hle, hbefore, hshort, hlast⟩ :=
    Merkle.exists_end (merkleJoin C) leaves
  have hroot : merkleRoot C leaves =
      ((merkleLevel C)^[n] leaves).headD Hash.zero := by
    rw [merkleRoot, merkleLoop_eq, hlast, hlevel]
  refine ⟨n, hle, by rwa [hlevel], by rwa [hlevel], hroot, fun hne => ?_⟩
  obtain ⟨top, htop⟩ := Merkle.exists_single (merkleJoin C) hne
  rw [hroot, hlevel, ← hlast, htop]
  rfl

/-- Lists with the same root are equal. -/
theorem eq_of_merkleRoot {l₁ l₂ : List Hash} (h₁ : l₁ ≠ []) (h₂ : l₂ ≠ [])
    (hfree : ∀ x ∈ merkleHashed C l₁ ++ merkleHashed C l₂,
      ∀ y ∈ merkleHashed C l₁ ++ merkleHashed C l₂,
        C.hashBytes x = C.hashBytes y → x = y)
    (hleaf : ∀ leaf ∈ l₁ ++ l₂,
      ∀ x ∈ merkleHashed C l₁ ++ merkleHashed C l₂, leaf ≠ C.hashBytes x)
    (h : merkleRoot C l₁ = merkleRoot C l₂) : l₁ = l₂ := by
  have hmem : ∀ p, p ∈ Merkle.combined (merkleJoin C) l₁.length l₁ ++
      Merkle.combined (merkleJoin C) l₂.length l₂ →
        merkleNode p ∈ merkleHashed C l₁ ++ merkleHashed C l₂ := by
    intro p hp
    rw [merkleHashed, merkleHashed, ← List.map_append]
    exact List.mem_map_of_mem hp
  have htop : (Merkle.level (merkleJoin C))^[l₁.length] l₁ =
      (Merkle.level (merkleJoin C))^[l₂.length] l₂ := by
    obtain ⟨a, ha⟩ := Merkle.exists_single (merkleJoin C) h₁
    obtain ⟨b, hb⟩ := Merkle.exists_single (merkleJoin C) h₂
    rw [merkleRoot, merkleRoot, merkleLoop_eq, merkleLoop_eq, ha, hb] at h
    rw [ha, hb, show a = b from h]
  refine Merkle.top_inj h₁ h₂ (fun p hp q hq heq => ?_) (fun a ha p hp => ?_)
    htop
  · exact merkleNode_injective (hfree _ (hmem p hp) _ (hmem q hq) heq)
  · exact hleaf a ha _ (hmem p hp)

/-- `merkle_root` binds its leaves: two lists that are not empty have the same
root only if they are equal, when no two of the node encodings hashed for them
collide and no leaf is the hash of one. The level loop ends for every list. -/
theorem merkle_root_binds (C : Crypto) (l₁ l₂ : List Hash)
    (h₁ : l₁ ≠ []) (h₂ : l₂ ≠ [])
    (hfree : ∀ x ∈ merkleHashed C l₁ ++ merkleHashed C l₂,
      ∀ y ∈ merkleHashed C l₁ ++ merkleHashed C l₂,
        C.hashBytes x = C.hashBytes y → x = y)
    (hleaf : ∀ leaf ∈ l₁ ++ l₂,
      ∀ x ∈ merkleHashed C l₁ ++ merkleHashed C l₂, leaf ≠ C.hashBytes x) :
    (merkleRoot C l₁ = merkleRoot C l₂ ↔ l₁ = l₂) ∧
      ∀ leaves, ∃ n ≤ leaves.length, MerkleEnds C leaves n := by
  refine ⟨⟨eq_of_merkleRoot h₁ h₂ hfree hleaf, fun h => by rw [h]⟩, ?_⟩
  exact merkleRoot_ends C

/-- A digest in which every byte counts. -/
def Crypto.rolling : Crypto where
  hashBytes b := ⟨Bytes.ofNat 32
    (b.foldl (fun digest byte => digest * 257 + byte.toNat + 1) 0)⟩
  verify _ _ _ := true

/-- Three leaves, and two of them. -/
theorem merkle_root_binds_three :
    (merkleRoot .rolling [Sample.hash 1, Sample.hash 2, Sample.hash 3] =
        merkleRoot .rolling [Sample.hash 1, Sample.hash 2] ↔
      [Sample.hash 1, Sample.hash 2, Sample.hash 3] =
        [Sample.hash 1, Sample.hash 2]) ∧
      ∀ leaves, ∃ n ≤ leaves.length, MerkleEnds .rolling leaves n :=
  merkle_root_binds .rolling _ _ (by decide) (by decide) (by decide +kernel)
    (by decide +kernel)

/-! ## Ballots -/

/-- What is hashed for a ballot. -/
def Ballot.hashed (b : Ballot) : List UInt8 :=
  b.payload ++ Enc.fixed b.signature.bytes

theorem Ballot.hashed_injective : Function.Injective Ballot.hashed := by
  intro b b' h
  have hwidth : (Enc.fixed b.signature.bytes).length =
      (Enc.fixed b'.signature.bytes).length := by
    rw [Enc.fixed, Enc.fixed, Bytes.length_eq, Bytes.length_eq]
  obtain ⟨hpayload, hsig⟩ := List.append_inj' h hwidth
  have hfields := Ballot.payload_inj hpayload
  rcases b with ⟨voteId, voter, approve, castAt, ⟨⟨sig, hlen⟩⟩⟩
  rcases b' with ⟨voteId', voter', approve', castAt', ⟨⟨sig', hlen'⟩⟩⟩
  simp only [Prod.mk.injEq] at hfields
  obtain ⟨rfl, rfl, rfl, rfl⟩ := hfields
  obtain rfl : sig = sig' := hsig
  rfl

/-- A ballot is hashed under its own tag. -/
theorem Ballot.hashed_ne_merkleNode (b : Ballot) (p : Hash × Hash) :
    b.hashed ≠ merkleNode p := by
  simp only [hashed, payload, merkleNode, List.append_assoc]
  exact Enc.domain_ne (by decide) (by decide) (by decide) _ _

/-- Two counts of ballots with the same root are over the same ballots, if
nothing that was hashed for them collides. -/
theorem ballots_bound {ballots₁ ballots₂ : List Ballot} (h₁ : ballots₁ ≠ [])
    (h₂ : ballots₂ ≠ []) {hashed : Set (List UInt8)}
    (hfree : ∀ x ∈ hashed, ∀ y ∈ hashed,
      C.hashBytes x = C.hashBytes y → x = y)
    (hballots : ∀ b ∈ ballots₁ ++ ballots₂, b.hashed ∈ hashed)
    (hnodes : ∀ x ∈ merkleHashed C (ballots₁.map (Ballot.hash C)) ++
      merkleHashed C (ballots₂.map (Ballot.hash C)), x ∈ hashed)
    (h : merkleRoot C (ballots₁.map (Ballot.hash C)) =
      merkleRoot C (ballots₂.map (Ballot.hash C))) :
    ballots₁ = ballots₂ := by
  have hhashes : ballots₁.map (Ballot.hash C) =
      ballots₂.map (Ballot.hash C) := by
    refine eq_of_merkleRoot (by simpa using h₁) (by simpa using h₂)
      (fun x hx y hy => hfree x (hnodes x hx) y (hnodes y hy)) ?_ h
    intro leaf hleaf x hx heq
    rw [← List.map_append] at hleaf
    obtain ⟨b, hb, rfl⟩ := List.mem_map.1 hleaf
    have hsame : b.hashed = x := hfree _ (hballots b hb) x (hnodes x hx) heq
    rw [merkleHashed, merkleHashed, ← List.map_append] at hx
    obtain ⟨p, -, rfl⟩ := List.mem_map.1 hx
    exact b.hashed_ne_merkleNode p hsame
  have hcount : ballots₁.length = ballots₂.length := by
    simpa using congrArg List.length hhashes
  refine List.ext_getElem hcount fun i hi hj => ?_
  have hhash : ballots₁[i].hash C = ballots₂[i].hash C := by
    have hboth := List.getElem_of_eq hhashes (i := i) (by simpa using hi)
    rwa [List.getElem_map, List.getElem_map] at hboth
  refine Ballot.hashed_injective (hfree _ (hballots _ ?_) _ (hballots _ ?_)
    hhash)
  · exact List.mem_append_left _ (List.getElem_mem hi)
  · exact List.mem_append_right _ (List.getElem_mem hj)

end Intranet
