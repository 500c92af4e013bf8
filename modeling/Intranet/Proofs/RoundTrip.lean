import Intranet.Lib.Run
import Intranet.Proofs.Wire
import Intranet.Ref.Log
import Intranet.Ref.Sample

/-!
# Whole messages

Every message is a domain tag, a value and nothing after it; some are checked
once more when the value is there. `framed_reads` and `framed_ok` are the two
directions for that shape. What follows is the round trip of every governance
message, and the two places where the wire form and the rest of the system
disagree: an accepted entry may be outside the bounds only the decoder
enforces, and a sequence out of order still decodes to the entry whose own
encoding has it in order.
-/

namespace Intranet

open Reader Wire

variable {C : Crypto} {validKey : Bytes 32 → Bool} {L : Collect} {e : LogEntry}
  {b : List UInt8}

/-! ## Entries -/

theorem decodeEntryWith_encodeEntry (hsig : e.verifySignature C = .ok ())
    (hbounds : e.InBounds validKey) (hlen : (encodeEntry e).length < 2 ^ 64) :
    decodeEntryWith L C validKey (encodeEntry e) = .ok e :=
  Dec.framed_reads (getEntry_reads hbounds)
    (Reads.step (Reads.check hsig) (Reads.pure e)) hlen

theorem decodeEntryWith_ok (h : decodeEntryWith L C validKey b = .ok e) :
    e.verifySignature C = .ok () ∧ e.InBounds validKey ∧
      (L.Strict → b = encodeEntry e) := by
  obtain ⟨x, read, rest, rfl, hread, hcheck⟩ := Dec.framed_ok h
  obtain ⟨u, mid, hsig, hpure⟩ := bind_ok.1 hcheck
  obtain ⟨hsig, -⟩ := check_ok.1 hsig
  obtain ⟨rfl, -⟩ := pure_ok.1 hpure
  obtain ⟨hbounds, hexact⟩ := getEntry_ok hread
  refine ⟨hsig, hbounds, fun hL => ?_⟩
  rw [encodeEntry, hexact hL, List.append_nil]

/-! ## The sync messages -/

theorem getHashes_reads (hashes : List Hash) :
    Reads (Dec.seq getHash) (encodeHashes hashes) hashes :=
  Dec.seq_reads (fun h => Enc.fixed_ne_nil h.bytes) fun h _ => getHash_reads h

theorem SyncRequest.decode_encode (r : SyncRequest)
    (hlen : r.encode.length < 2 ^ 64) :
    SyncRequest.decode r.encode = .ok r := by
  refine Dec.framed_reads ?_ (Reads.pure r) hlen
  cases r with
  | heads => exact Dec.variant_pure_reads rfl
  | fetch wanted held =>
      simp only [List.append_assoc]
      refine Dec.variant_reads (Reads.bind (getHashes_reads wanted) ?_)
      exact Reads.map (getHashes_reads held)

/-- What a response carries, its peers can read: entries signed and within
the decoder's bounds. -/
def SyncResponse.Readable (C : Crypto) (validKey : Bytes 32 → Bool) :
    SyncResponse → Prop
  | .heads _ => True
  | .entries sent _ => ∀ e ∈ sent,
      e.verifySignature C = .ok () ∧ e.InBounds validKey

/-- Entries that decode one by one decode as a list. -/
theorem mapM_decodeEntry {entries : List LogEntry}
    (h : ∀ e ∈ entries, decodeEntry C validKey (encodeEntry e) = .ok e) :
    (entries.map encodeEntry).mapM (decodeEntry C validKey) = .ok entries := by
  induction entries with
  | nil => rfl
  | cons e entries ih =>
      rw [List.map_cons, List.mapM_cons, h e List.mem_cons_self,
        ih fun d hd => h d (List.mem_cons_of_mem e hd)]
      rfl

theorem of_mapM_decodeEntry {items : List (List UInt8)}
    {entries : List LogEntry}
    (h : items.mapM (decodeEntry C validKey) = .ok entries) :
    ∀ e ∈ entries, e.InBounds validKey := by
  induction items generalizing entries with
  | nil =>
      cases h
      intro e he
      cases he
  | cons item items ih =>
      rw [List.mapM_cons] at h
      obtain ⟨d, hd, h⟩ := Run.bind_ok.1 h
      obtain ⟨tail, htail, h⟩ := Run.bind_ok.1 h
      cases h
      intro e he
      rcases List.mem_cons.1 he with rfl | he
      · exact (decodeEntryWith_ok hd).2.1
      · exact ih htail e he

/-- The entries of a response are written as the list of their encodings. -/
theorem seq_bytes_encodeEntry (entries : List LogEntry) :
    Enc.seq entries (fun e => Enc.bytes (encodeEntry e)) =
      Enc.seq (entries.map encodeEntry) Enc.bytes := by
  rw [Enc.seq, Enc.seq, List.length_map, List.flatMap_map]

theorem length_encodeEntry_le {entries : List LogEntry} (he : e ∈ entries) :
    (encodeEntry e).length ≤
      (Enc.seq entries fun e => Enc.bytes (encodeEntry e)).length := by
  induction entries with
  | nil => cases he
  | cons d entries ih =>
      simp only [Enc.seq, List.length_append, List.flatMap_cons,
        Enc.bytes, Enc.u64, Enc.length_bigEndian] at ih ⊢
      rcases List.mem_cons.1 he with rfl | he
      · omega
      · have := ih he
        omega

theorem SyncResponse.decode_encode {r : SyncResponse}
    (hr : r.Readable C validKey) (hlen : r.encode.length < 2 ^ 64) :
    SyncResponse.decode C validKey r.encode = .ok r := by
  refine Dec.framed_reads ?_ (Reads.pure r) hlen
  cases r with
  | heads tips => exact Dec.variant_reads (Reads.map (getHashes_reads tips))
  | entries sent truncated =>
      have hmapM : (sent.map encodeEntry).mapM (decodeEntry C validKey) =
          .ok sent := by
        refine mapM_decodeEntry fun e he => ?_
        have hle := length_encodeEntry_le he
        simp only [encode, List.length_append] at hlen
        exact decodeEntryWith_encodeEntry (hr e he).1 (hr e he).2 (by omega)
      simp only [seq_bytes_encodeEntry, List.append_assoc]
      refine Dec.variant_reads (Reads.bind (Dec.seq_reads Enc.bytes_ne_nil
        fun item _ => Dec.bytes_reads item) ?_)
      exact Reads.step (Reads.ofExcept hmapM) (Reads.map (Dec.bool_reads truncated))

theorem SyncResponse.inBounds_of_decode {entries : List LogEntry}
    {truncated : Bool}
    (h : SyncResponse.decode C validKey b = .ok (.entries entries truncated)) :
    ∀ e ∈ entries, e.InBounds validKey := by
  obtain ⟨x, read, rest, -, hread, hpure⟩ := Dec.framed_ok h
  obtain ⟨rfl, -⟩ := pure_ok.1 hpure
  obtain ⟨d, mid, hd, hread⟩ := bind_ok.1 hread
  split at hread
  · obtain ⟨tips, i₁, h₁, hread⟩ := bind_ok.1 hread
    cases (pure_ok.1 hread).1
  · obtain ⟨items, i₁, h₁, hread⟩ := bind_ok.1 hread
    obtain ⟨read, i₂, h₂, hread⟩ := bind_ok.1 hread
    obtain ⟨flag, i₃, h₃, hread⟩ := bind_ok.1 hread
    cases (pure_ok.1 hread).1
    exact of_mapM_decodeEntry (ofExcept_ok.1 h₂).1
  · exact (unknown_ok.1 hread).elim

/-! ## The ballot messages -/

/-- A signed request that names few enough ballots. -/
structure BallotRequest.Readable (C : Crypto) (validKey : Bytes 32 → Bool)
    (r : BallotRequest) : Prop where
  signed : r.verify C = .ok ()
  held : r.held.length ≤ maxBallots
  requester : validKey r.requester.key.bytes = true

theorem BallotRequest.decode_encode {r : BallotRequest}
    (hr : r.Readable C validKey) (hlen : r.encode.length < 2 ^ 64) :
    BallotRequest.decode C validKey r.encode = .ok r := by
  refine Dec.framed_reads (x := r.put) ?_
    (Reads.step (Reads.ofExcept hr.signed) (Reads.pure r)) hlen
  simp only [put, List.append_assoc]
  refine Reads.bind (getHash_reads r.voteId) ?_
  refine Reads.bind (getHashes_reads r.held) ?_
  refine Reads.step (Reads.check hr.held) ?_
  refine Reads.bind (getIdentity_reads hr.requester) ?_
  exact Reads.map (getSignature_reads r.signature)

/-- Few enough ballots, all of them signed. -/
def BallotResponse.Readable (C : Crypto) (validKey : Bytes 32 → Bool) :
    BallotResponse → Prop
  | .ballots sent _ => sent.length ≤ maxBallotsPerResponse ∧
      ∀ b ∈ sent, b.verify C = .ok () ∧ validKey b.voter.key.bytes = true
  | .refused _ => True

theorem getVerifiedBallot_reads {ballot : Ballot}
    (hsig : ballot.verify C = .ok ())
    (hkey : validKey ballot.voter.key.bytes = true) :
    Reads (BallotResponse.getVerifiedBallot C validKey) ballot.encode ballot :=
  Reads.andThen (getBallot_reads hkey)
    (Reads.step (Reads.check hsig) (Reads.pure ballot))

theorem BallotResponse.decode_encode {r : BallotResponse}
    (hr : r.Readable C validKey) (hlen : r.encode.length < 2 ^ 64) :
    BallotResponse.decode C validKey r.encode = .ok r := by
  refine Dec.framed_reads ?_ (Reads.pure r) hlen
  cases r with
  | ballots sent truncated =>
      obtain ⟨hcount, hsent⟩ := hr
      simp only [List.append_assoc]
      refine Dec.variant_reads (Reads.bind (Dec.seq_reads Ballot.encode_ne_nil
        fun b hb => getVerifiedBallot_reads (hsent b hb).1 (hsent b hb).2) ?_)
      exact Reads.step (Reads.check hcount) (Reads.map (Dec.bool_reads truncated))
  | refused reason =>
      refine Dec.variant_reads (Reads.map ?_)
      cases reason <;> exact Dec.variant_pure_reads rfl

/-- Every governance message reads back as what was sent. The bounds are the
decoder's own; the one on the whole length is that of a byte vector. -/
theorem wire_round_trip (C : Crypto) (validKey : Bytes 32 → Bool) :
    (∀ e : LogEntry, e.verifySignature C = .ok () → e.InBounds validKey →
      (encodeEntry e).length < 2 ^ 64 →
      decodeEntry C validKey (encodeEntry e) = .ok e ∧
        (decodeEntry C validKey (encodeEntry e)).map (LogEntry.hash C) =
          .ok (e.hash C)) ∧
    (∀ r : SyncRequest, r.encode.length < 2 ^ 64 →
      SyncRequest.decode r.encode = .ok r) ∧
    (∀ r : SyncResponse, r.Readable C validKey → r.encode.length < 2 ^ 64 →
      SyncResponse.decode C validKey r.encode = .ok r) ∧
    (∀ r : BallotRequest, r.Readable C validKey → r.encode.length < 2 ^ 64 →
      BallotRequest.decode C validKey r.encode = .ok r) ∧
    ∀ r : BallotResponse, r.Readable C validKey → r.encode.length < 2 ^ 64 →
      BallotResponse.decode C validKey r.encode = .ok r := by
  refine ⟨fun e hsig hbounds hlen => ?_, fun r => r.decode_encode,
    fun r => SyncResponse.decode_encode, fun r => BallotRequest.decode_encode,
    fun r => BallotResponse.decode_encode⟩
  have hdecode : decodeEntry C validKey (encodeEntry e) = .ok e :=
    decodeEntryWith_encodeEntry hsig hbounds hlen
  exact ⟨hdecode, by rw [hdecode]; rfl⟩

/-- An admission, sent and read. -/
theorem wire_round_trip_admission :
    decodeEntry .sample (fun _ => true)
        (encodeEntry (Sample.entry 1 (some 0) 1 1 (Sample.admits 2))) =
      .ok (Sample.entry 1 (some 0) 1 1 (Sample.admits 2)) := by
  have hbounds : (Sample.entry 1 (some 0) 1 1 (Sample.admits 2)).InBounds
      fun _ => true := ⟨rfl, rfl, fun _ _ => rfl⟩
  exact ((wire_round_trip .sample fun _ => true).1 _
    (Sample.verifySignature_entry _ _ _ _ _) hbounds (by decide +kernel)).1

/-! ## What a node accepts and what its peers read -/

theorem verifySignature_of_insert {log log' : GovernanceLog} {hash : Hash}
    (h : log.insert C e = .ok (hash, log')) : e.verifySignature C = .ok () := by
  obtain ⟨u, hsig, -⟩ := Run.bind_ok.1 h
  exact hsig

/-- An accepted entry comes back from the wire exactly when it is within the
decoder's bounds, and a response of accepted entries exactly when all of them
are. -/
theorem accepted_readable_iff (C : Crypto) (validKey : Bytes 32 → Bool) :
    (∀ (log log' : GovernanceLog) (hash : Hash) (e : LogEntry),
      log.insert C e = .ok (hash, log') → (encodeEntry e).length < 2 ^ 64 →
      (decodeEntry C validKey (encodeEntry e) = .ok e ↔
        e.InBounds validKey)) ∧
    ∀ (entries : List LogEntry) (truncated : Bool),
      (∀ e ∈ entries, ∃ log log' hash,
        GovernanceLog.insert C log e = .ok (hash, log')) →
      (SyncResponse.entries entries truncated).encode.length < 2 ^ 64 →
      (SyncResponse.decode C validKey
          (SyncResponse.entries entries truncated).encode =
        .ok (.entries entries truncated) ↔
          ∀ e ∈ entries, e.InBounds validKey) := by
  constructor
  · intro log log' hash e hinsert hlen
    constructor
    · intro h
      exact (decodeEntryWith_ok h).2.1
    · intro hbounds
      exact decodeEntryWith_encodeEntry (verifySignature_of_insert hinsert)
        hbounds hlen
  · intro entries truncated hinsert hlen
    constructor
    · exact SyncResponse.inBounds_of_decode
    · intro hbounds
      refine SyncResponse.decode_encode (fun e he => ?_) hlen
      obtain ⟨log, log', hash, h⟩ := hinsert e he
      exact ⟨verifySignature_of_insert h, hbounds e he⟩

/-- An app entry of the founder, in the namespace `space`. -/
def founderAppEntry (space : String) : LogEntry :=
  Sample.entry 1 (some 0) 1 1 (.appEntry space "note" .readContent [])

def foundingLog (C : Crypto) : Except GovernanceError (Hash × GovernanceLog) :=
  GovernanceLog.new.insert C
    (Sample.genesis 0 NetworkPolicy.conservativeDefault [])

/-- In a namespace it comes back as it was. -/
theorem accepted_readable_iff_named :
    ∃ log hash log',
      GovernanceLog.insert .sample log (founderAppEntry "wiki") =
        .ok (hash, log') ∧
      decodeEntry .sample (fun _ => true)
        (encodeEntry (founderAppEntry "wiki")) =
          .ok (founderAppEntry "wiki") := by
  have hcheck : Run.okAnd (foundingLog .sample) (fun r =>
      Run.okAnd (r.2.insert .sample (founderAppEntry "wiki")) fun _ => true) =
      true := by
    decide +kernel
  obtain ⟨r, -, hp⟩ := Run.okAnd_iff.1 hcheck
  obtain ⟨r', hr', -⟩ := Run.okAnd_iff.1 hp
  refine ⟨r.2, r'.1, r'.2, hr', ?_⟩
  refine ((accepted_readable_iff .sample fun _ => true).1 r.2 r'.2 r'.1 _ hr'
    (by decide +kernel)).2 ⟨rfl, ?_⟩
  exact ⟨by decide +kernel, by decide⟩

/-- Without one it is accepted and replays, and no peer can read it, nor any
response it is in. -/
theorem accepted_entry_unreadable :
    (∃ log hash log', GovernanceLog.insert .sample log (founderAppEntry "") =
      .ok (hash, log')) ∧
    (∃ s, GovernanceState.replay .sample
      [Sample.genesis 0 NetworkPolicy.conservativeDefault [],
        founderAppEntry ""] = .ok s) ∧
    decodeEntry .sample (fun _ => true) (encodeEntry (founderAppEntry "")) =
      .error (.malformedAppEntry "" "note") ∧
    SyncResponse.decode .sample (fun _ => true) (SyncResponse.entries
        [Sample.genesis 0 NetworkPolicy.conservativeDefault [],
          founderAppEntry ""] false).encode =
      .error (.malformedAppEntry "" "note") := by
  have hlog : Run.okAnd (foundingLog .sample) (fun r =>
      Run.okAnd (r.2.insert .sample (founderAppEntry "")) fun _ => true) =
      true := by
    decide +kernel
  have hreplay : Run.okAnd (GovernanceState.replay .sample
      [Sample.genesis 0 NetworkPolicy.conservativeDefault [],
        founderAppEntry ""]) (fun _ => true) = true := by
    decide +kernel
  obtain ⟨r, -, hp⟩ := Run.okAnd_iff.1 hlog
  obtain ⟨r', hr', -⟩ := Run.okAnd_iff.1 hp
  obtain ⟨s, hs, -⟩ := Run.okAnd_iff.1 hreplay
  refine ⟨⟨r.2, r'.1, r'.2, hr'⟩, ⟨s, hs⟩, ?_, ?_⟩
  · decide +kernel
  · decide +kernel

/-! ## One spelling per entry -/

/-- Takes a sequence only if it is in strictly ascending order. -/
def Collect.ascending : Collect where
  set items :=
    if items.Pairwise (· < ·) then .ok (Std.ExtTreeSet.ofList items compare)
    else .error (.malformed (.unknownVariant "unordered sequence" 0))
  map items :=
    if items.Pairwise (fun a b => a.1 < b.1) then
      .ok (Std.ExtTreeMap.ofList items compare)
    else .error (.malformed (.unknownVariant "unordered sequence" 0))
  set_toList s := by
    rw [if_pos (BTreeSet.toList_pairwise s), BTreeSet.ofList_toList]
  map_toList m := by
    rw [if_pos (BTreeMap.toList_pairwise m), BTreeMap.ofList_toList]
  set_ok h := by
    split at h
    · exact (Except.ok.inj h).symm
    · cases h
  map_ok h := by
    split at h
    · exact (Except.ok.inj h).symm
    · cases h

theorem Collect.ascending_strict : Collect.ascending.Strict where
  set h := by
    simp only [ascending] at h
    split at h
    · next hitems =>
        cases h
        exact BTreeSet.toList_ofList hitems
    · cases h
  map h := by
    simp only [ascending] at h
    split at h
    · next hitems =>
        cases h
        exact BTreeMap.toList_ofList hitems
    · cases h

/-- The bytes read as an entry even if every sequence that becomes a set or a
map has to stand in strictly ascending order. -/
def ListsAscending (validKey : Bytes 32 → Bool) (b : List UInt8) : Prop :=
  ∃ r, (do
    Dec.domain entryWireDomain
    getEntry .ascending validKey) b = .ok r

/-- Among the byte strings that decode to an entry, the ones with their
sequences in order are those that equal its encoding. -/
theorem wire_form_unique_iff (h : decodeEntry C validKey b = .ok e)
    (hlen : b.length < 2 ^ 64) :
    b = encodeEntry e ↔ ListsAscending validKey b := by
  obtain ⟨x, read, rest, rfl, hread, hcheck⟩ := Dec.framed_ok h
  obtain ⟨u, mid, hsig, hpure⟩ := bind_ok.1 hcheck
  obtain ⟨rfl, -⟩ := pure_ok.1 hpure
  have hlen' := hlen
  rw [List.length_append] at hlen'
  constructor
  · intro heq
    refine ⟨(read, []), ?_⟩
    have hx : x = putEntry read := List.append_cancel_left heq
    have hbounds := (getEntry_ok hread).1
    rw [bind_of_ok (Dec.domain_reads _ (by omega) x), hx]
    have hreads := getEntry_reads (L := .ascending) hbounds
      (by rw [← hx]; omega) []
    rwa [List.append_nil] at hreads
  · intro hasc
    obtain ⟨⟨found, rest'⟩, hfound⟩ := hasc
    rw [bind_of_ok (Dec.domain_reads _ (by omega) x)] at hfound
    obtain ⟨hbounds, hexact⟩ := getEntry_ok hfound
    -- in order, `x` is an encoding followed by a rest; collected, it is read
    -- as the same entry and the same rest
    have hx := hexact Collect.ascending_strict
    have hle := congrArg List.length hx
    rw [List.length_append] at hle
    have hagain := getEntry_reads (L := .sorting) hbounds (by omega) rest'
    rw [← hx, hread] at hagain
    cases hagain
    rw [encodeEntry, hx, List.append_nil]

/-- An allowlist entry, with its content types written in the order
given. -/
def allowlistBytes (types : List ContentType) : List UInt8 :=
  Enc.domain entryWireDomain ++ Enc.option (some (Sample.hash 0))
      (fun h => Enc.fixed h.bytes) ++
    Enc.i64 1 ++ (Sample.identity 1).encode ++ Enc.variant 4 ++
    Enc.seq types (fun t => Enc.str t.tag) ++
    Enc.fixed (Sample.signature 1 1).bytes

/-- The entry those bytes stand for, in any order. -/
def allowlistEntry (types : List ContentType) : LogEntry :=
  Sample.entry 1 (some 0) 1 1
    (.contentTypePolicy (Std.ExtTreeSet.ofList types compare))

/-- In order, the bytes are the entry's encoding. -/
theorem wire_form_unique_iff_sorted :
    decodeEntry .sample (fun _ => true)
        (allowlistBytes [⟨"image"⟩, ⟨"text"⟩]) =
        .ok (allowlistEntry [⟨"image"⟩, ⟨"text"⟩]) ∧
      allowlistBytes [⟨"image"⟩, ⟨"text"⟩] =
        encodeEntry (allowlistEntry [⟨"image"⟩, ⟨"text"⟩]) := by
  have hdecode : decodeEntry .sample (fun _ => true)
      (allowlistBytes [⟨"image"⟩, ⟨"text"⟩]) =
        .ok (allowlistEntry [⟨"image"⟩, ⟨"text"⟩]) := by
    decide +kernel
  have hasc : Run.okAnd ((do
      Dec.domain entryWireDomain
      getEntry .ascending fun _ => true : Reader WireError LogEntry)
        (allowlistBytes [⟨"image"⟩, ⟨"text"⟩])) (fun _ => true) = true := by
    decide +kernel
  obtain ⟨r, hr, -⟩ := Run.okAnd_iff.1 hasc
  exact ⟨hdecode, (wire_form_unique_iff hdecode (by decide +kernel)).2 ⟨r, hr⟩⟩

/-- Out of order, they are another spelling of it. -/
theorem wire_form_not_unique :
    decodeEntry .sample (fun _ => true)
        (allowlistBytes [⟨"image"⟩, ⟨"text"⟩]) =
        .ok (allowlistEntry [⟨"image"⟩, ⟨"text"⟩]) ∧
      decodeEntry .sample (fun _ => true)
        (allowlistBytes [⟨"text"⟩, ⟨"image"⟩]) =
        .ok (allowlistEntry [⟨"image"⟩, ⟨"text"⟩]) ∧
      allowlistBytes [⟨"image"⟩, ⟨"text"⟩] ≠
        allowlistBytes [⟨"text"⟩, ⟨"image"⟩] := by
  have hsame : (Std.ExtTreeSet.ofList [⟨"image"⟩, ⟨"text"⟩] compare :
      BTreeSet ContentType) =
        Std.ExtTreeSet.ofList [⟨"text"⟩, ⟨"image"⟩] compare := by
    decide +kernel
  have hswapped : decodeEntry .sample (fun _ => true)
      (allowlistBytes [⟨"text"⟩, ⟨"image"⟩]) =
        .ok (allowlistEntry [⟨"text"⟩, ⟨"image"⟩]) := by
    decide +kernel
  refine ⟨by decide +kernel, ?_, by decide +kernel⟩
  rw [hswapped, allowlistEntry, allowlistEntry, hsame]

end Intranet
