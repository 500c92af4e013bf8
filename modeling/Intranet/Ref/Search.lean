import Intranet.Lib.Inverted
import Intranet.Ref.AppDirectory

/-!
# Search

The search crate: `tokenize.rs`, `document.rs`, `posting.rs`, `index.rs` and
`query.rs`. A posting is built from the fields of what is published and signed
by its publisher; an index holds postings by their hash and the ids of the
postings of each term; a query is split into terms as the fields were.

Which characters are letters, and what a word is in lower case, are tables of
the standard library (`UnicodeTables`). Scores are `f64`, which is `Float`.
The count of a term is a `u32` and wraps, as it does in a release build.
-/

namespace Intranet

/-- `char::is_alphanumeric` and `str::to_lowercase`. -/
structure UnicodeTables where
  isAlphanumeric : Char → Bool
  toLowercase : String → String

/-- A normalised search term. -/
@[ext]
structure Term where
  text : String
deriving DecidableEq

instance : LinearOrder Term :=
  LinearOrder.lift' Term.text fun _ _ => Term.ext

/-! ## Tokenising -/

def minTokenLen : ℕ := 2

def stopWords : List String :=
  ["a", "an", "and", "are", "as", "at", "be", "but", "by", "for", "from",
    "has", "have", "he", "her", "his", "in", "is", "it", "its", "of", "on",
    "or", "she", "that", "the", "they", "this", "to", "was", "were", "will",
    "with", "you", "your"]

/-- `strip_suffix`. -/
def stripSuffix (word suffix : String) : Option String :=
  if suffix.toList <:+ word.toList then
    some (String.ofList
      (word.toList.take (word.toList.length - suffix.toList.length)))
  else none

/-- Strips a small set of common English suffixes. -/
def stem (word : String) : String :=
  if word.utf8ByteSize ≤ 3 then word
  else
    let stripped := ["ingly", "edly", "ing", "ies", "ed", "es", "s"].findSome?
      fun suffix =>
        match stripSuffix word suffix with
        | none => none
        | some root =>
            if 3 ≤ root.utf8ByteSize then
              some (if suffix = "ies" then root ++ "y" else root)
            else none
    stripped.getD word

/-- One piece of a text between separators, as a term. -/
def termOf (U : UnicodeTables) (raw : String) : Option Term :=
  let lowered := U.toLowercase raw
  if lowered.utf8ByteSize < minTokenLen || stopWords.contains lowered then none
  else
    let stemmed := stem lowered
    if minTokenLen ≤ stemmed.utf8ByteSize then some ⟨stemmed⟩ else none

/-- Splits a text into normalised terms, in order and with repeats. -/
def tokenize (U : UnicodeTables) (text : String) : List Term :=
  (text.toList.splitOnP fun c => !U.isAlphanumeric c).filterMap fun raw =>
    termOf U (String.ofList raw)

/-- Counts how often each term appears. -/
def termFrequencies (U : UnicodeTables) (text : String) :
    BTreeMap Term UInt32 :=
  (tokenize U text).foldl (fun counts term =>
    counts.insert term (counts[term]?.getD 0 + 1)) ∅

/-! ## What gets indexed -/

/-- Which field a term matched. -/
inductive Field where
  | title
  | tag
  | description
  | body
deriving DecidableEq

namespace Field

/-- Twice the weight of a field, which is a multiple of one half. -/
def halves : Field → ℕ
  | .title => 6
  | .tag => 5
  | .description => 3
  | .body => 2

/-- Relevance weight for a match in this field. -/
def weight (field : Field) : Float := Float.ofNat field.halves / 2

def discriminant : Field → UInt8
  | .title => 0
  | .tag => 1
  | .description => 2
  | .body => 3

end Field

structure ContentMetadata where
  title : String
  description : String
deriving DecidableEq

/-- The searchable fields of an index document. -/
structure IndexDocument where
  title : String
  tags : List String
  bodyText : String
deriving DecidableEq

/-- Everything indexable about one publish. -/
structure IndexableContent where
  pointerId : PointerId
  metadata : ContentMetadata
  document : Option IndexDocument
deriving DecidableEq

/-- Field-tagged text to be indexed. -/
def IndexableContent.fields (content : IndexableContent) :
    List (Field × String) :=
  [(.title, content.metadata.title),
    (.description, content.metadata.description)] ++
    match content.document with
    | none => []
    | some document =>
        [(.title, document.title), (.body, document.bodyText)] ++
          document.tags.map fun tag => (.tag, tag)

/-! ## Postings -/

/-- How one term occurs within one piece of content. -/
structure TermStats where
  frequency : UInt32
  bestField : Field
deriving DecidableEq

/-- One publish's complete index entry. -/
structure Posting where
  pointerId : PointerId
  terms : BTreeMap Term TermStats
  publishedAt : Timestamp
  publisherIdentity : PerNetworkIdentityId
  signature : Signature
deriving DecidableEq

inductive SearchError where
  | badSignature
  | rejected (err : StorageError)
  | wrongNetwork
deriving DecidableEq

/-- `u32::saturating_add`. -/
def saturatingAdd (a b : UInt32) : UInt32 :=
  UInt32.ofNat (min (a.toNat + b.toNat) (UInt32.size - 1))

/-- What `build` does for one term of one field. -/
def recordTerm (terms : BTreeMap Term TermStats) (field : Field) (term : Term)
    (count : UInt32) : BTreeMap Term TermStats :=
  terms.insert term <|
    match terms[term]? with
    | none => ⟨count, field⟩
    | some stats =>
        ⟨saturatingAdd stats.frequency count,
          if stats.bestField.halves < field.halves then field
          else stats.bestField⟩

/-- The terms of everything indexable. -/
def IndexableContent.terms (U : UnicodeTables) (content : IndexableContent) :
    BTreeMap Term TermStats :=
  content.fields.foldl (fun terms (field, text) =>
    (termFrequencies U text).toList.foldl (fun terms (term, count) =>
      recordTerm terms field term count) terms) ∅

namespace Posting

/-- What a publisher signs. -/
def payload (pointerId : PointerId) (terms : BTreeMap Term TermStats)
    (publishedAt : Timestamp) (publisher : PerNetworkIdentityId) :
    List UInt8 :=
  Enc.domain "intranet.search-posting.v1" ++ Enc.fixed pointerId.bytes ++
    Enc.seq terms.toList (fun entry => Enc.str entry.1.text ++
      Enc.u32 entry.2.frequency ++ Enc.u8 entry.2.bestField.discriminant) ++
    Enc.i64 publishedAt.millis ++ publisher.encode

def signedBytes (p : Posting) : List UInt8 :=
  payload p.pointerId p.terms p.publishedAt p.publisherIdentity

/-- Derives a posting from content being published. -/
def build {C : Crypto} {validKey : Bytes 32 → Bool} (U : UnicodeTables)
    (publisher : PerNetworkIdentity C validKey) (content : IndexableContent)
    (publishedAt : Timestamp) : Posting :=
  let terms := content.terms U
  { pointerId := content.pointerId
    terms := terms
    publishedAt := publishedAt
    publisherIdentity := publisher.id
    signature := publisher.sign
      (payload content.pointerId terms publishedAt publisher.id) }

/-- This posting's content-addressed identifier. -/
def id (C : Crypto) (p : Posting) : Hash :=
  C.hashBytes (p.signedBytes ++ Enc.fixed p.signature.bytes)

/-- The collection keys this posting is announced under. -/
def announcements (C : Crypto) (p : Posting) (network : NetworkId) :
    List Hash :=
  p.terms.keys.map fun term => collectionId C network term.text

/-- Verifies the publisher's signature. -/
def verify (C : Crypto) (p : Posting) : Except SearchError Unit :=
  if C.verify p.publisherIdentity.key p.signedBytes p.signature then .ok ()
  else .error .badSignature

/-- Validates this posting: the signature, current membership, and that the
pointer is not delisted. -/
def validate (C : Crypto) (p : Posting) (state : GovernanceState) :
    Except SearchError Unit :=
  match p.verify C with
  | .error err => .error err
  | .ok () =>
      match validateEntryContext p.publisherIdentity (some p.pointerId) state with
      | .error err => .error (.rejected err)
      | .ok () => .ok ()

/-- Whether this posting has aged past `ttlMillis` without refresh. -/
def isStale (p : Posting) (now : Timestamp) (ttlMillis : Int64) : Bool :=
  ttlMillis < now.millisSince p.publishedAt

end Posting

/-! ## The index -/

/-- One node's local index for one network. -/
structure LocalIndex where
  network : NetworkId
  postings : BTreeMap Hash Posting
  byTerm : BTreeMap Term (BTreeSet Hash)
  truncatedTerms : BTreeSet Term
  ttlMillis : Int64

namespace LocalIndex

/-- `DEFAULT_POSTING_TTL_MILLIS`. -/
def defaultTtlMillis : Int64 := 24 * 60 * 60 * 1000

def new (network : NetworkId) : LocalIndex :=
  ⟨network, ∅, ∅, ∅, defaultTtlMillis⟩

def withTtl (index : LocalIndex) (ttlMillis : Int64) : LocalIndex :=
  { index with ttlMillis }

/-- Records a posting, validating it first. -/
def insert (C : Crypto) (index : LocalIndex) (posting : Posting)
    (state : GovernanceState) : Except SearchError LocalIndex :=
  if state.network ≠ index.network then .error .wrongNetwork
  else
    match posting.validate C state with
    | .error err => .error err
    | .ok () =>
        .ok { index with
          byTerm := Inverted.file index.byTerm (posting.id C) posting.terms.keys
          postings := index.postings.insert (posting.id C) posting }

/-- Records that a term's enumeration was cut short. -/
def markTruncated (index : LocalIndex) (term : Term) : LocalIndex :=
  { index with truncatedTerms := index.truncatedTerms.insert term }

def isTruncated (index : LocalIndex) (term : Term) : Bool :=
  index.truncatedTerms.contains term

/-- Postings currently held for a term. -/
def postingsFor (index : LocalIndex) (term : Term) : List Posting :=
  match index.byTerm[term]? with
  | none => []
  | some ids => ids.toList.filterMap fun id => index.postings[id]?

/-- `remove_all`. -/
def removeAll (index : LocalIndex) (ids : List Hash) : LocalIndex :=
  { index with
    postings := ids.foldl (fun postings id => postings.erase id) index.postings
    byTerm := Inverted.drop index.byTerm (Std.ExtTreeSet.ofList ids compare) }

/-- The ids of the held postings that meet a condition. -/
def idsWhere (index : LocalIndex) (p : Posting → Bool) : List Hash :=
  (index.postings.toList.filter fun entry => p entry.2).map Prod.fst

/-- Drops postings that have aged out, and how many. -/
def expire (index : LocalIndex) (now : Timestamp) : ℕ × LocalIndex :=
  let stale := index.idsWhere fun posting => posting.isStale now index.ttlMillis
  (stale.length, index.removeAll stale)

/-- Re-validates every posting, and how many were dropped. -/
def revalidate (C : Crypto) (index : LocalIndex) (state : GovernanceState) :
    ℕ × LocalIndex :=
  let rejected := index.idsWhere fun posting =>
    !(posting.validate C state).toOption.isSome
  (rejected.length, index.removeAll rejected)

/-- Replaces a pointer's postings with a newer one. The old ones are gone
whether or not the new one is accepted. -/
def reindex (C : Crypto) (index : LocalIndex) (posting : Posting)
    (state : GovernanceState) : Except SearchError Unit × LocalIndex :=
  let superseded := index.idsWhere fun held =>
    held.pointerId = posting.pointerId
  let index := index.removeAll superseded
  match index.insert C posting state with
  | .error err => (.error err, index)
  | .ok index => (.ok (), index)

end LocalIndex

/-! ## Queries -/

/-- One ranked result. -/
structure SearchResult where
  pointerId : PointerId
  score : Float
  matchedTerms : List Term

structure SearchResults where
  results : List SearchResult
  incomplete : Bool

/-- `partial_cmp`, with what does not compare taken as equal. -/
def compareScores (a b : Float) : Ordering :=
  if a < b then .lt else if b < a then .gt else .eq

/-- Whether a result is ranked no later than another: the higher score first,
ties by pointer. -/
def ranksBefore (a b : SearchResult) : Bool :=
  ((compareScores b.score a.score).then
    (compare a.pointerId b.pointerId)) ≠ .gt

/-- What a posting adds to the score of its pointer. -/
def scorePosting (term : Term) (idf : Float)
    (scored : BTreeMap PointerId (Float × List Term)) (posting : Posting) :
    BTreeMap PointerId (Float × List Term) :=
  match posting.terms[term]? with
  | none => scored
  | some stats =>
      let tf := 1 + (Float.ofNat stats.frequency.toNat).log
      let contribution := tf * idf * stats.bestField.weight
      let (score, matched) := scored[posting.pointerId]?.getD (0, [])
      scored.insert posting.pointerId (score + contribution, matched ++ [term])

/-- The loop over the terms of a query. -/
def searchTerms (index : LocalIndex) (corpus : Float) : List Term →
    BTreeSet Term → BTreeMap PointerId (Float × List Term) → Bool →
    BTreeMap PointerId (Float × List Term) × Bool
  | [], _, scored, incomplete => (scored, incomplete)
  | term :: rest, seen, scored, incomplete =>
      if seen.contains term then searchTerms index corpus rest seen scored incomplete
      else
        let seen := seen.insert term
        let incomplete := incomplete || index.isTruncated term
        let postings := index.postingsFor term
        if postings.isEmpty then
          searchTerms index corpus rest seen scored incomplete
        else
          let idf := (corpus / Float.ofNat postings.length).log + 1
          searchTerms index corpus rest seen
            (postings.foldl (scorePosting term idf) scored) incomplete

/-- Runs a query against a node's local index. -/
def search (U : UnicodeTables) (index : LocalIndex) (query : String) :
    SearchResults :=
  let terms := tokenize U query
  if terms.isEmpty then ⟨[], false⟩
  else
    let corpus := Float.ofNat (max index.postings.size 1)
    let (scored, incomplete) := searchTerms index corpus terms ∅ ∅ false
    let results := scored.toList.map fun (pointerId, score, matched) =>
      SearchResult.mk pointerId score matched
    ⟨results.mergeSort ranksBefore, incomplete⟩

end Intranet
