import Intranet.Lib.Ending
import Intranet.Proofs.Encoding
import Intranet.Ref.InviteWire
import Intranet.Ref.Sample

/-!
# Invites arrive whole

The addresses of an invite are cut at the start of what they all end with, so
three things have to fit together: the cut never falls inside a character, the
ending cut off is the same string in every address, and joining them gives the
addresses back. All of it follows from one description of the loop that finds
the ending. It stops at the longest ending that the addresses share byte for
byte and that starts a character in each of them, and that is the longest
string they all end with.

What is left is the round trip of the fields, as for other messages. An invite
within the decoder's bounds is short, so no length has to be assumed.
-/

namespace Intranet

open Reader

namespace InviteWire

variable {addresses : List String} {first s : String} {index : ℕ}

/-! ## Strings and their bytes -/

theorem length_bytesOf (s : String) : (bytesOf s).length = s.utf8ByteSize := by
  rw [bytesOf, Array.length_toList]
  rfl

theorem bytesOf_append (s t : String) :
    bytesOf (s ++ t) = bytesOf s ++ bytesOf t := by
  rw [bytesOf, String.toByteArray_append, ByteArray.data_append,
    Array.toList_append]
  rfl

theorem bytesOf_injective {s t : String} (h : bytesOf s = bytesOf t) : s = t :=
  String.toByteArray_inj.1 (ByteArray.ext (Array.toList_inj.1 h))

/-- A boundary cuts the string in two. -/
theorem isCharBoundary_iff : isCharBoundary s index = true ↔
    ∃ head tail, s = head ++ tail ∧ index = head.utf8ByteSize := by
  rw [isCharBoundary, String.Pos.Raw.isValid_eq_true_iff,
    String.Pos.Raw.isValid_iff_exists_append]
  constructor
  · intro h
    obtain ⟨head, tail, hs, hindex⟩ := h
    exact ⟨head, tail, hs, congrArg String.Pos.Raw.byteIdx hindex⟩
  · intro h
    obtain ⟨head, tail, hs, rfl⟩ := h
    exact ⟨head, tail, hs, rfl⟩

theorem sliceTo_append (head tail : String) :
    sliceTo (head ++ tail) ((head ++ tail).utf8ByteSize - tail.utf8ByteSize) =
      some head := by
  have hindex : (head ++ tail).utf8ByteSize - tail.utf8ByteSize =
      head.utf8ByteSize := by
    rw [String.utf8ByteSize_append]
    omega
  have hvalid : (⟨head.utf8ByteSize⟩ : String.Pos.Raw).IsValid (head ++ tail) :=
    String.Pos.Raw.isValid_iff_exists_append.2 ⟨head, tail, rfl, rfl⟩
  rw [hindex, sliceTo, dif_pos hvalid]
  refine congrArg some (String.toByteArray_inj.1 ?_)
  show (head ++ tail).toByteArray.extract 0 head.utf8ByteSize = head.toByteArray
  rw [String.toByteArray_append]
  exact ByteArray.extract_append_eq_left rfl

theorem sliceFrom_append (head tail : String) :
    sliceFrom (head ++ tail)
      ((head ++ tail).utf8ByteSize - tail.utf8ByteSize) = some tail := by
  have hindex : (head ++ tail).utf8ByteSize - tail.utf8ByteSize =
      head.utf8ByteSize := by
    rw [String.utf8ByteSize_append]
    omega
  have hvalid : (⟨head.utf8ByteSize⟩ : String.Pos.Raw).IsValid (head ++ tail) :=
    String.Pos.Raw.isValid_iff_exists_append.2 ⟨head, tail, rfl, rfl⟩
  rw [hindex, sliceFrom, dif_pos hvalid]
  refine congrArg some (String.toByteArray_inj.1 ?_)
  show (head ++ tail).toByteArray.extract head.utf8ByteSize
    (head ++ tail).utf8ByteSize = tail.toByteArray
  rw [String.toByteArray_append, String.utf8ByteSize_append]
  exact ByteArray.extract_append_eq_right rfl rfl

/-! ## The shared ending -/

/-- The addresses have a boundary `length` bytes before their ends. -/
def AllBoundary (addresses : List String) (length : ℕ) : Prop :=
  (addresses.all fun address =>
    isCharBoundary address (address.utf8ByteSize - length)) = true

instance (addresses : List String) : DecidablePred (AllBoundary addresses) :=
  fun _ => inferInstanceAs (Decidable (_ = true))

/-- The loop finds the greatest length at which all are at a boundary. -/
theorem backOff_eq (addresses : List String) (length : ℕ) :
    backOff addresses length =
      Nat.findGreatest (AllBoundary addresses) length := by
  induction length with
  | zero => rfl
  | succ length ih =>
      rw [backOff, Nat.findGreatest_succ, ih]
      rfl

theorem backOff_le (addresses : List String) (length : ℕ) :
    backOff addresses length ≤ length := by
  rw [backOff_eq]
  exact Nat.findGreatest_le length

/-- Where the addresses end is a boundary in all of them. -/
theorem allBoundary_zero (addresses : List String) :
    AllBoundary addresses 0 := by
  rw [AllBoundary, List.all_eq_true]
  intro address _
  refine isCharBoundary_iff.2 ⟨address, "", ?_, Nat.sub_zero _⟩
  rw [String.append_empty]

theorem allBoundary_backOff (addresses : List String) (length : ℕ) :
    AllBoundary addresses (backOff addresses length) := by
  rw [backOff_eq]
  exact Nat.findGreatest_spec (Nat.zero_le length) (allBoundary_zero addresses)

/-- A string every address ends with. -/
def CommonEnding (addresses : List String) (tail : String) : Prop :=
  ∀ address ∈ addresses, ∃ head, address = head ++ tail

theorem CommonEnding.allBoundary {tail : String}
    (h : CommonEnding addresses tail) :
    AllBoundary addresses tail.utf8ByteSize := by
  rw [AllBoundary, List.all_eq_true]
  intro address haddress
  obtain ⟨head, rfl⟩ := h address haddress
  refine isCharBoundary_iff.2 ⟨head, tail, rfl, ?_⟩
  rw [String.utf8ByteSize_append]
  omega

/-- How many bytes at the end the first address shares with all the others. -/
def sharedByAll (first : String) (rest : List String) : ℕ :=
  rest.foldl (fun shortest address => min shortest (shared first address))
    first.utf8ByteSize

theorem le_sharedByAll_iff {k : ℕ} {rest : List String} :
    k ≤ sharedByAll first rest ↔ k ≤ first.utf8ByteSize ∧
      ∀ address ∈ rest, ∃ t, t.length = k ∧ t <:+ bytesOf first ∧
        t <:+ bytesOf address := by
  rw [sharedByAll, Ending.le_foldl_min_iff]
  refine and_congr_right fun _ => forall₂_congr fun address _ => ?_
  exact Ending.le_shared_iff

/-- A string that ends with `t` at a boundary ends with a string of these
bytes. -/
theorem exists_ending {t : List UInt8} (ht : t <:+ bytesOf s)
    (hboundary : isCharBoundary s (s.utf8ByteSize - t.length) = true) :
    ∃ head tail, s = head ++ tail ∧ bytesOf tail = t := by
  obtain ⟨head, tail, rfl, hindex⟩ := isCharBoundary_iff.1 hboundary
  refine ⟨head, tail, rfl, ?_⟩
  have hle := ht.length_le
  rw [length_bytesOf] at hle
  rw [String.utf8ByteSize_append] at hindex hle
  rw [bytesOf_append] at ht
  refine Ending.suffix_unique (List.suffix_append _ _) ht ?_
  rw [length_bytesOf]
  omega

/-- Where the loop stops, the first address is cut in two. -/
theorem exists_suffix (first : String) (rest : List String) :
    ∃ head suffix, first = head ++ suffix ∧ suffix.utf8ByteSize =
      backOff (first :: rest) (sharedByAll first rest) := by
  have hall := allBoundary_backOff (first :: rest) (sharedByAll first rest)
  have hfit := (le_sharedByAll_iff.1
    (backOff_le (first :: rest) (sharedByAll first rest))).1
  rw [AllBoundary, List.all_eq_true] at hall
  obtain ⟨head, suffix, hfirst, hindex⟩ :=
    isCharBoundary_iff.1 (hall first List.mem_cons_self)
  refine ⟨head, suffix, hfirst, ?_⟩
  have hsize := congrArg String.utf8ByteSize hfirst
  rw [String.utf8ByteSize_append] at hsize
  omega

/-- What is cut off the first address there, the others end with too. -/
theorem commonEnding_of_size {head : String} {rest : List String}
    {suffix : String}
    (hsize : suffix.utf8ByteSize =
      backOff ((head ++ suffix) :: rest) (sharedByAll (head ++ suffix) rest)) :
    CommonEnding ((head ++ suffix) :: rest) suffix := by
  have hall := allBoundary_backOff ((head ++ suffix) :: rest)
    (sharedByAll (head ++ suffix) rest)
  have hshared := (le_sharedByAll_iff.1 (backOff_le ((head ++ suffix) :: rest)
    (sharedByAll (head ++ suffix) rest))).2
  rw [AllBoundary, List.all_eq_true] at hall
  intro address haddress
  rcases List.mem_cons.1 haddress with rfl | hrest
  · exact ⟨head, rfl⟩
  · obtain ⟨t, ht, htfirst, htaddress⟩ := hshared address hrest
    have hboundary := hall address haddress
    rw [← ht] at hboundary
    obtain ⟨head', tail, rfl, htail⟩ := exists_ending htaddress hboundary
    have hsame : bytesOf suffix = t := by
      rw [bytesOf_append] at htfirst
      refine Ending.suffix_unique (List.suffix_append _ _) htfirst ?_
      rw [length_bytesOf, hsize, ht]
    exact ⟨head', by rw [bytesOf_injective (htail.trans hsame.symm)]⟩

/-- The loop does not go past a string that all of them end with. -/
theorem CommonEnding.size_le_backOff {rest : List String} {tail : String}
    (h : CommonEnding (first :: rest) tail) :
    tail.utf8ByteSize ≤
      backOff (first :: rest) (sharedByAll first rest) := by
  have hbytes : ∀ address ∈ first :: rest,
      bytesOf tail <:+ bytesOf address := by
    intro address haddress
    obtain ⟨head, rfl⟩ := h address haddress
    rw [bytesOf_append]
    exact List.suffix_append _ _
  have hfirst := hbytes first List.mem_cons_self
  rw [backOff_eq]
  refine Nat.le_findGreatest (le_sharedByAll_iff.2 ⟨?_, ?_⟩) h.allBoundary
  · rw [← length_bytesOf, ← length_bytesOf]
    exact hfirst.length_le
  · intro address hrest
    exact ⟨bytesOf tail, length_bytesOf tail, hfirst,
      hbytes address (List.mem_cons_of_mem _ hrest)⟩

/-- The shared ending is one that every address ends with, and no longer one
is. -/
theorem commonSuffix_spec (addresses : List String) :
    ∃ suffix, commonSuffix addresses = some suffix ∧
      CommonEnding addresses suffix ∧
      (addresses = [] → suffix = "") ∧
      (addresses ≠ [] → ∀ tail, CommonEnding addresses tail →
        tail.utf8ByteSize ≤ suffix.utf8ByteSize) := by
  cases addresses with
  | nil =>
      refine ⟨"", rfl, ?_, fun _ => rfl, fun h => absurd rfl h⟩
      intro address haddress
      cases haddress
  | cons first rest =>
      obtain ⟨head, suffix, rfl, hsize⟩ := exists_suffix first rest
      refine ⟨suffix, ?_, commonEnding_of_size hsize,
        fun h => absurd h (List.cons_ne_nil _ _), fun _ tail htail => ?_⟩
      · show sliceFrom (head ++ suffix) ((head ++ suffix).utf8ByteSize -
          backOff _ (sharedByAll (head ++ suffix) rest)) = some suffix
        rw [← hsize, sliceFrom_append]
      · rw [hsize]
        exact htail.size_le_backOff

/-! ## Addresses -/

/-- What is left of an address before the shared ending. -/
def headOf (suffix address : String) : String :=
  (sliceTo address (address.utf8ByteSize - suffix.utf8ByteSize)).getD ""

theorem headOf_append (head suffix : String) :
    headOf suffix (head ++ suffix) = head := by
  rw [headOf, sliceTo_append, Option.getD_some]

variable {suffix : String}

theorem mapM_sliceTo (h : CommonEnding addresses suffix) :
    (addresses.mapM fun address =>
        sliceTo address (address.utf8ByteSize - suffix.utf8ByteSize)) =
      some (addresses.map (headOf suffix)) := by
  induction addresses with
  | nil => rfl
  | cons address rest ih =>
      obtain ⟨head, rfl⟩ := h address List.mem_cons_self
      rw [List.mapM_cons, sliceTo_append, List.map_cons, headOf_append,
        ih fun b hb => h b (List.mem_cons_of_mem _ hb)]
      rfl

theorem map_headOf (h : CommonEnding addresses suffix) :
    (addresses.map (headOf suffix)).map (· ++ suffix) = addresses := by
  rw [List.map_map]
  conv_rhs => rw [← List.map_id addresses]
  refine List.map_congr_left fun address haddress => ?_
  obtain ⟨head, rfl⟩ := h address haddress
  show headOf suffix (head ++ suffix) ++ suffix = head ++ suffix
  rw [headOf_append]

theorem putAddresses_eq (hsuffix : commonSuffix addresses = some suffix)
    (h : CommonEnding addresses suffix) :
    putAddresses addresses = some (Enc.str suffix ++
      Enc.seq (addresses.map (headOf suffix)) Enc.str) := by
  rw [putAddresses, hsuffix]
  show (addresses.mapM fun address =>
      sliceTo address (address.utf8ByteSize - suffix.utf8ByteSize)) >>= _ = _
  rw [mapM_sliceTo h]
  rfl

theorem getAddress_reads {head : String}
    (h : (head ++ suffix).utf8ByteSize ≤ maxAddressBytes) :
    Reads (getAddress suffix) (Enc.str head) (head ++ suffix) := by
  refine Reads.andThen (Dec.str_reads head) (Reads.step (Reads.check ?_)
    (Reads.pure _))
  rwa [← String.utf8ByteSize_append]

theorem getAddresses_reads (h : CommonEnding addresses suffix)
    (hcount : addresses.length ≤ maxBootstrapAddresses)
    (hbytes : ∀ a ∈ addresses, a.utf8ByteSize ≤ maxAddressBytes) :
    Reads getAddresses (Enc.str suffix ++
      Enc.seq (addresses.map (headOf suffix)) Enc.str) addresses := by
  rw [Dec.seq_map]
  refine Reads.bind (Dec.str_reads suffix) (Reads.andThen
    (Dec.seq_reads (fun address => Enc.str_ne_nil _) fun address haddress => ?_)
    (Reads.step (Reads.check hcount) (Reads.pure addresses)))
  have hsize := hbytes address haddress
  obtain ⟨head, rfl⟩ := h address haddress
  rw [headOf_append]
  exact getAddress_reads hsize

theorem length_str (s : String) : (Enc.str s).length = 8 + s.utf8ByteSize := by
  rw [Enc.str, Enc.bytes, List.length_append, Enc.u64, Enc.length_bigEndian,
    ← length_bytesOf]
  rfl

/-- Addresses within the bounds take few bytes. -/
theorem length_addresses_le (h : CommonEnding addresses suffix)
    (hempty : addresses = [] → suffix = "")
    (hcount : addresses.length ≤ maxBootstrapAddresses)
    (hbytes : ∀ a ∈ addresses, a.utf8ByteSize ≤ maxAddressBytes) :
    (Enc.str suffix ++
      Enc.seq (addresses.map (headOf suffix)) Enc.str).length ≤ 10000 := by
  have hsuffix : suffix.utf8ByteSize ≤ maxAddressBytes := by
    cases addresses with
    | nil =>
        rw [hempty rfl]
        decide
    | cons address rest =>
        have hsize := hbytes address List.mem_cons_self
        obtain ⟨head, rfl⟩ := h address List.mem_cons_self
        rw [String.utf8ByteSize_append] at hsize
        omega
  have hheads : ((addresses.map (headOf suffix)).flatMap Enc.str).length ≤
      (8 + maxAddressBytes) * addresses.length := by
    clear hcount hempty hsuffix
    induction addresses with
    | nil => exact le_rfl
    | cons address rest ih =>
        have hrest := ih (fun b hb => h b (List.mem_cons_of_mem _ hb))
          fun b hb => hbytes b (List.mem_cons_of_mem _ hb)
        have hsize := hbytes address List.mem_cons_self
        obtain ⟨head, rfl⟩ := h address List.mem_cons_self
        rw [String.utf8ByteSize_append] at hsize
        rw [List.map_cons, List.flatMap_cons, List.length_append, length_str,
          headOf_append, List.length_cons]
        rw [Nat.mul_succ]
        omega
  rw [maxAddressBytes] at hsuffix hheads
  rw [maxBootstrapAddresses] at hcount
  rw [List.length_append, length_str, Enc.seq, List.length_append, Enc.u64,
    Enc.length_bigEndian]
  omega

/-! ## Invites -/

variable {validKey : Bytes 32 → Bool}

theorem getIdentity_reads {id : PerNetworkIdentityId}
    (h : validKey id.key.bytes = true) :
    Reads (getIdentity validKey) id.encode id :=
  Dec.identity_reads h

theorem getSubject_reads {subject : InviteSubject}
    (h : ∀ named, subject = .identity named →
      validKey named.key.bytes = true) :
    Reads (getSubject validKey) (putSubject subject) subject := by
  cases subject with
  | bearer => exact Dec.variant_pure_reads rfl
  | identity named =>
      exact Dec.variant_reads (Reads.map (getIdentity_reads (h named rfl)))

theorem length_putSubject_le (subject : InviteSubject) :
    (putSubject subject).length ≤ 33 := by
  cases subject with
  | bearer => decide
  | identity named =>
      rw [putSubject, List.length_append, PerNetworkIdentityId.encode,
        Enc.fixed, Bytes.length_eq]
      exact le_rfl

/-- What the decoder takes: few and short addresses, and keys the curve
has. -/
structure Sendable (validKey : Bytes 32 → Bool) (i : Invite) : Prop where
  count : i.bootstrapAddresses.length ≤ maxBootstrapAddresses
  bytes : ∀ a ∈ i.bootstrapAddresses, a.utf8ByteSize ≤ maxAddressBytes
  issuer : validKey i.issuer.key.bytes = true
  subject : ∀ named, i.subject = .identity named →
    validKey named.key.bytes = true

/-- An invite is written, in few bytes, and read back. -/
theorem putInvite_reads {i : Invite} (h : Sendable validKey i) :
    ∃ bytes, putInvite i = some bytes ∧ bytes.length ≤ 11000 ∧
      Reads (getInvite validKey) bytes i := by
  obtain ⟨suffix, hsuffix, hending, hempty, -⟩ :=
    commonSuffix_spec i.bootstrapAddresses
  have hput := putAddresses_eq hsuffix hending
  have hlen := length_addresses_le hending hempty h.count h.bytes
  have hread := getAddresses_reads hending h.count h.bytes
  generalize Enc.str suffix ++ Enc.seq (i.bootstrapAddresses.map
    (headOf suffix)) Enc.str = written at hput hlen hread
  refine ⟨_, by rw [putInvite, hput]; rfl, ?_, ?_⟩
  · have hsubject := length_putSubject_le i.subject
    simp only [List.length_append, NetworkId.encode,
      PerNetworkIdentityId.encode, Enc.fixed, Bytes.length_eq, Enc.i64, Enc.u64,
      Enc.u32, Enc.length_bigEndian]
    omega
  · simp only [List.append_assoc]
    refine Reads.bind (Dec.fixed_reads i.network.bytes) ?_
    refine Reads.bind hread ?_
    refine Reads.bind (getIdentity_reads h.issuer) ?_
    refine Reads.bind (getSubject_reads h.subject) ?_
    refine Reads.bind (Dec.i64_reads i.issuedAt.millis) ?_
    refine Reads.bind (Dec.i64_reads i.expiresAt.millis) ?_
    refine Reads.bind (Dec.u32_reads i.maxUses) ?_
    exact Reads.map (Dec.fixed_reads i.signature.bytes)

theorem decodeInvite_encodeInvite {i : Invite} (h : Sendable validKey i) :
    ∃ bytes, encodeInvite i = some bytes ∧
      decodeInvite validKey bytes = .ok i := by
  have hdomain : (Enc.domain inviteDomain).length = 31 := by decide +kernel
  obtain ⟨bytes, hput, hlen, hread⟩ := putInvite_reads h
  refine ⟨Enc.domain inviteDomain ++ bytes, by rw [encodeInvite, hput]; rfl, ?_⟩
  refine Dec.framed_reads hread (Reads.pure i) ?_
  rw [List.length_append, hdomain]
  omega

end InviteWire

/-! ## Join requests -/

namespace JoinRequest

open InviteWire

variable {C : Crypto} {validKey : Bytes 32 → Bool}

theorem verify_create (joiner : PerNetworkIdentity C validKey)
    (invite : Invite) : (create joiner invite).verify C = .ok () :=
  if_pos (joiner.verifies _)

theorem decode_encode {r : JoinRequest} (h : Sendable validKey r.invite)
    (hjoiner : validKey r.joiner.key.bytes = true)
    (hsigned : r.verify C = .ok ()) :
    ∃ bytes, r.encode = some bytes ∧ decode C validKey bytes = .ok r := by
  have hdomain : (Enc.domain wireDomain).length = 37 := by decide +kernel
  obtain ⟨bytes, hput, hlen, hread⟩ := putInvite_reads h
  refine ⟨_, by rw [encode, hput]; rfl, ?_⟩
  refine Dec.framed_reads (p := get validKey) (a := r) ?_
    (Reads.step (Reads.ofExcept hsigned) (Reads.pure r)) ?_
  · rw [List.append_assoc]
    refine Reads.bind (getIdentity_reads hjoiner) (Reads.bind hread ?_)
    exact Reads.map (Dec.fixed_reads r.signature.bytes)
  · simp only [List.length_append, hdomain, PerNetworkIdentityId.encode,
      Enc.fixed, Bytes.length_eq]
    omega

end JoinRequest

open InviteWire in
/-- An invite within the bounds is always written, with the longest ending
that its addresses share, and read back the same, by itself and in a request
that presents it. -/
theorem invite_round_trip (C : Crypto) (validKey : Bytes 32 → Bool)
    (i : Invite)
    (hcount : i.bootstrapAddresses.length ≤ maxBootstrapAddresses)
    (hbytes : ∀ a ∈ i.bootstrapAddresses, a.utf8ByteSize ≤ maxAddressBytes)
    (hissuer : validKey i.issuer.key.bytes = true)
    (hsubject : ∀ named, i.subject = .identity named →
      validKey named.key.bytes = true) :
    (∃ bytes read, encodeInvite i = some bytes ∧
      decodeInvite validKey bytes = .ok read ∧ read = i ∧
      read.inviteId C = i.inviteId C) ∧
    (∃ suffix heads, putAddresses i.bootstrapAddresses =
        some (Enc.str suffix ++ Enc.seq heads Enc.str) ∧
      heads.map (· ++ suffix) = i.bootstrapAddresses ∧
      (i.bootstrapAddresses = [] → suffix = "") ∧
      (i.bootstrapAddresses ≠ [] → ∀ tail,
        (∀ a ∈ i.bootstrapAddresses, ∃ head, a = head ++ tail) →
        tail.utf8ByteSize ≤ suffix.utf8ByteSize)) ∧
    (∀ request : JoinRequest, request.invite = i →
      validKey request.joiner.key.bytes = true → request.verify C = .ok () →
      ∃ bytes, request.encode = some bytes ∧
        JoinRequest.decode C validKey bytes = .ok request) ∧
    ∀ joiner : PerNetworkIdentity C validKey,
      ∃ bytes, (JoinRequest.create joiner i).encode = some bytes ∧
        JoinRequest.decode C validKey bytes =
          .ok (JoinRequest.create joiner i) := by
  have h : Sendable validKey i := ⟨hcount, hbytes, hissuer, hsubject⟩
  refine ⟨?_, ?_, ?_, fun joiner => ?_⟩
  · obtain ⟨bytes, hencode, hdecode⟩ := decodeInvite_encodeInvite h
    exact ⟨bytes, i, hencode, hdecode, rfl, rfl⟩
  · obtain ⟨suffix, hsuffix, hending, hempty, hlongest⟩ :=
      commonSuffix_spec i.bootstrapAddresses
    exact ⟨suffix, _, putAddresses_eq hsuffix hending, map_headOf hending,
      hempty, hlongest⟩
  · rintro request rfl hjoiner hsigned
    exact JoinRequest.decode_encode h hjoiner hsigned
  · exact JoinRequest.decode_encode h joiner.valid
      (JoinRequest.verify_create joiner i)

/-- Two addresses that share a byte of a character and no more. -/
def InviteWire.sampleInvite : Invite :=
  ⟨Sample.network, ["é", "Ʃ"], Sample.identity 1, .bearer, ⟨0⟩, ⟨1000⟩, 1,
    Sample.signature 1 0⟩

open InviteWire in
theorem invite_round_trip_sample :
    ∃ bytes read, encodeInvite sampleInvite = some bytes ∧
      decodeInvite (fun _ => true) bytes = .ok read ∧ read = sampleInvite ∧
      read.inviteId .sample = sampleInvite.inviteId .sample :=
  (invite_round_trip .sample (fun _ => true) sampleInvite (by decide)
    (by decide) rfl fun _ _ => rfl).1

end Intranet
