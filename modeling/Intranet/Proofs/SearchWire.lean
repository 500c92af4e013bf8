import Intranet.Proofs.Dec
import Intranet.Proofs.Stemming
import Intranet.Ref.SearchWire

/-!
# What is published to search, read by peers

A posting is written with all its terms, and read back by a decoder with a
ceiling on them. The builder knows no ceiling. So a posting is read back
exactly when the words of everything it indexes come to no more terms than
that (`posting_readable_iff`).
-/

namespace Intranet

open Reader

namespace Posting

variable {C : Crypto} {validKey : Bytes 32 → Bool} {p : Posting}

theorem getField_reads (field : Field) :
    Reads getField (Enc.u8 field.discriminant) field := by
  cases field <;> exact Dec.variant_pure_reads rfl

theorem getTerm_reads (entry : Term × TermStats) :
    Reads getTerm (putTerm entry) entry := by
  rw [putTerm, List.append_assoc]
  refine Reads.bind (Dec.str_reads entry.1.text) ?_
  refine Reads.bind (Dec.u32_reads entry.2.frequency) ?_
  exact Reads.map (getField_reads entry.2.bestField)

theorem putTerm_ne_nil (entry : Term × TermStats) : putTerm entry ≠ [] := by
  simp [putTerm, Enc.u8]

theorem getTerms_reads {terms : BTreeMap Term TermStats}
    (h : terms.size ≤ maxTermsPerPosting) :
    Reads getTerms (Enc.seq terms.toList putTerm) terms := by
  have hcount : terms.toList.length ≤ maxTermsPerPosting := by
    rwa [Std.ExtTreeMap.length_toList]
  refine Reads.andThen
    (Dec.seq_reads putTerm_ne_nil fun entry _ => getTerm_reads entry) ?_
  refine Reads.step (Reads.check hcount) ?_
  rw [BTreeMap.ofList_toList]
  exact Reads.pure terms

/-- A posting within the ceiling is read back. -/
theorem decode_encode (hcount : p.terms.size ≤ maxTermsPerPosting)
    (hkey : validKey p.publisherIdentity.key.bytes = true)
    (hsigned : p.verify C = .ok ()) (hlen : p.encode.length < 2 ^ 64) :
    decode C validKey p.encode = .ok p := by
  have hwire : p.verifyWire C = .ok () := by rw [verifyWire, hsigned]
  refine Dec.framed_reads (p := get validKey) (a := p) ?_
    (Reads.step (Reads.ofExcept hwire) (Reads.pure p)) hlen
  simp only [List.append_assoc]
  refine Reads.bind (Dec.fixed_reads p.pointerId.bytes) ?_
  refine Reads.bind (getTerms_reads hcount) ?_
  refine Reads.bind (Dec.i64_reads p.publishedAt.millis) ?_
  refine Reads.bind (Dec.fixed_reads p.publisherIdentity.key.bytes) ?_
  refine Reads.step (Reads.check hkey) ?_
  exact Reads.map (Dec.fixed_reads p.signature.bytes)

/-- No posting beyond the ceiling comes out of the decoder. -/
theorem size_of_decode {bytes : List UInt8}
    (h : decode C validKey bytes = .ok p) :
    p.terms.size ≤ maxTermsPerPosting := by
  obtain ⟨x, q, rest, -, hget, hcheck⟩ := Dec.framed_ok h
  obtain ⟨u, mid, -, hcheck⟩ := Reader.bind_ok.1 hcheck
  obtain ⟨rfl, -⟩ := Reader.pure_ok.1 hcheck
  obtain ⟨pointerId, x1, -, hget⟩ := Reader.bind_ok.1 hget
  obtain ⟨terms, x2, hterms, hget⟩ := Reader.bind_ok.1 hget
  obtain ⟨publishedAt, x3, -, hget⟩ := Reader.bind_ok.1 hget
  obtain ⟨key, x4, -, hget⟩ := Reader.bind_ok.1 hget
  obtain ⟨u, x5, -, hget⟩ := Reader.bind_ok.1 hget
  obtain ⟨signature, x6, -, hget⟩ := Reader.bind_ok.1 hget
  obtain ⟨rfl, -⟩ := Reader.pure_ok.1 hget
  obtain ⟨pairs, y1, -, hterms⟩ := Reader.bind_ok.1 hterms
  obtain ⟨u, y2, hcount, hterms⟩ := Reader.bind_ok.1 hterms
  obtain ⟨rfl, -⟩ := Reader.pure_ok.1 hterms
  exact Std.ExtTreeMap.size_ofList_le.trans (Reader.check_ok.1 hcount).1

end Posting

/-- The distinct terms of everything indexable. -/
def IndexableContent.distinctTerms (U : UnicodeTables)
    (content : IndexableContent) : List Term :=
  (content.fields.flatMap fun field => tokenize U field.2).dedup

theorem IndexableContent.size_terms (U : UnicodeTables)
    (content : IndexableContent) :
    (content.terms U).size = (content.distinctTerms U).length := by
  rw [← Std.ExtTreeMap.length_keys]
  refine List.Perm.length_eq ((List.perm_ext_iff_of_nodup ?_ ?_).2 fun t => ?_)
  · exact Std.ExtTreeMap.nodup_keys
  · exact List.nodup_dedup _
  · rw [Std.ExtTreeMap.mem_keys, IndexableContent.mem_terms, distinctTerms,
      List.mem_dedup, List.mem_flatMap]

namespace Posting

/-- A posting comes back from the wire, with its id and its announcements,
exactly when what it indexes has no more distinct terms than the ceiling. -/
theorem posting_readable_iff (C : Crypto) (validKey : Bytes 32 → Bool)
    (U : UnicodeTables) (publisher : PerNetworkIdentity C validKey)
    (content : IndexableContent) (publishedAt : Timestamp)
    (hlen : (build U publisher content publishedAt).encode.length < 2 ^ 64) :
    (∃ read, decode C validKey (build U publisher content publishedAt).encode =
        .ok read ∧
      read = build U publisher content publishedAt ∧
      read.id C = (build U publisher content publishedAt).id C ∧
      ∀ network, read.announcements C network =
        (build U publisher content publishedAt).announcements C network) ↔
      (content.distinctTerms U).length ≤ maxTermsPerPosting := by
  rw [← content.size_terms U]
  constructor
  · rintro ⟨read, hdecode, rfl, -⟩
    exact size_of_decode hdecode
  · intro hcount
    have hsigned : (build U publisher content publishedAt).verify C = .ok () :=
      if_pos (publisher.verifies _)
    exact ⟨_, decode_encode hcount publisher.valid hsigned hlen, rfl, rfl,
      fun _ => rfl⟩

def sampleKeys (n nonce : ℕ) : PerNetworkIdentity .sample (fun _ => true) where
  id := Sample.identity n
  sign _ := Sample.signature n nonce
  valid := rfl
  verifies payload := Sample.verify_signature n nonce payload

def shortContent : IndexableContent :=
  ⟨⟨Bytes.ofNat 32 1⟩, ⟨"Tide tables", ""⟩, none⟩

theorem posting_readable_iff_short :
    ∃ read, decode .sample (fun _ => true)
      (build LocalIndex.asciiTables (sampleKeys 1 9) shortContent ⟨0⟩).encode =
        .ok read ∧
      read = build LocalIndex.asciiTables (sampleKeys 1 9) shortContent ⟨0⟩ ∧
      read.id .sample =
        (build LocalIndex.asciiTables (sampleKeys 1 9) shortContent ⟨0⟩).id .sample ∧
      ∀ network, read.announcements .sample network =
        (build LocalIndex.asciiTables (sampleKeys 1 9) shortContent ⟨0⟩).announcements
          .sample network :=
  (posting_readable_iff .sample (fun _ => true) LocalIndex.asciiTables (sampleKeys 1 9)
    shortContent ⟨0⟩ (by decide +kernel)).2 (by decide +kernel)

/-! ## A posting nobody can read -/

/-- A word of one letter. -/
def hum (n : ℕ) : String := String.ofList (List.replicate n 'q')

theorem toList_hum (n : ℕ) : (hum n).toList = List.replicate n 'q' :=
  String.toList_ofList

theorem hum_injective : Function.Injective hum := by
  intro a b h
  have hlen := congrArg (fun word => word.toList.length) h
  simpa only [toList_hum, List.length_replicate] using hlen

/-- No suffix that is stripped, and no stop word, is all of that letter. -/
theorem not_suffix_hum {n : ℕ} {word : String}
    (h : ∃ c ∈ word.toList, c ≠ 'q') :
    ¬ word.toList <:+ (hum n).toList := by
  obtain ⟨c, hc, hne⟩ := h
  intro hsuffix
  rw [toList_hum] at hsuffix
  exact hne (List.eq_of_mem_replicate (hsuffix.subset hc))

theorem stem_hum (n : ℕ) : stem (hum n) = hum n := by
  have hother : ∀ suffix ∈ stemSuffixes, ∃ c ∈ suffix.toList, c ≠ 'q' := by
    simp [stemSuffixes]
  exact stem_bare fun suffix hsuffix => not_suffix_hum (hother suffix hsuffix)

theorem tokenize_hum (n : ℕ) :
    tokenize LocalIndex.asciiTables (hum (n + 2)) = [⟨hum (n + 2)⟩] := by
  have hletters : ∀ c ∈ (hum (n + 2)).toList, 'a' ≤ c ∧ c ≤ 'z' := by
    intro c hc
    rw [toList_hum] at hc
    rw [List.eq_of_mem_replicate hc]
    decide
  have hlong : 2 ≤ (hum (n + 2)).toList.length := by
    rw [toList_hum, List.length_replicate]
    omega
  have hcommon : hum (n + 2) ∉ stopWords := by
    intro hmem
    have hother : ∀ word ∈ stopWords, ∃ c ∈ word.toList, c ≠ 'q' := by
      simp [stopWords]
    exact not_suffix_hum (hother _ hmem) List.suffix_rfl
  rw [tokenize_word LocalIndex.asciiTables_ascii hletters hlong hcommon
    (by rwa [stem_hum]), stem_hum]

/-- Content with so many tags, all of them different words. -/
def tagged (count : ℕ) : IndexableContent :=
  ⟨⟨Bytes.ofNat 32 1⟩, ⟨"", ""⟩,
    some ⟨"", (List.range count).map fun n => hum (n + 2), ""⟩⟩

theorem le_size_tagged (count : ℕ) :
    count ≤ ((tagged count).terms LocalIndex.asciiTables).size := by
  have hwords : ((List.range count).map fun n =>
      (⟨hum (n + 2)⟩ : Term)).Nodup := by
    refine List.nodup_range.map ?_
    intro a b h
    exact Nat.add_right_cancel (hum_injective (congrArg Term.text h))
  have hsub : ((List.range count).map fun n => (⟨hum (n + 2)⟩ : Term)) ⊆
      ((tagged count).terms LocalIndex.asciiTables).keys := by
    intro t ht
    obtain ⟨n, hn, rfl⟩ := List.mem_map.1 ht
    rw [Std.ExtTreeMap.mem_keys, IndexableContent.mem_terms]
    refine ⟨(.tag, hum (n + 2)), ?_, ?_⟩
    · refine List.mem_append_right _ (List.mem_append_right _ ?_)
      exact List.mem_map.2 ⟨_, List.mem_map.2 ⟨n, hn, rfl⟩, rfl⟩
    · rw [tokenize_hum]
      exact List.mem_singleton_self _
  have hle := (hwords.subperm hsub).length_le
  rwa [List.length_map, List.length_range, Std.ExtTreeMap.length_keys] at hle

theorem tagged_unreadable {count : ℕ} (h : maxTermsPerPosting < count) :
    decode .sample (fun _ => true)
        (build LocalIndex.asciiTables (sampleKeys 1 9) (tagged count)
          ⟨0⟩).encode ≠
      .ok (build LocalIndex.asciiTables (sampleKeys 1 9) (tagged count) ⟨0⟩) := by
  intro hdecode
  have hle := (le_size_tagged count).trans (size_of_decode hdecode)
  exact Nat.not_le.2 h hle

/-- The publisher's own index has it, and its bytes decode to no posting. -/
theorem many_words_unreadable : ¬ ∀ content : IndexableContent,
    decode .sample (fun _ => true)
        (build LocalIndex.asciiTables (sampleKeys 1 9) content ⟨0⟩).encode =
      .ok (build LocalIndex.asciiTables (sampleKeys 1 9) content ⟨0⟩) :=
  fun hall => tagged_unreadable (Nat.lt_succ_self _) (hall (tagged _))

end Posting

end Intranet
