import Intranet.Ref.Dec
import Intranet.Ref.Pointer

/-!
# Append-sets and the app directory

`appendset.rs` of the storage crate and the discovery half of `registry.rs` of
the app crate. Who owns a name is in the governance state. The directory is an
append-set over it: entries that any member publishes, kept by their hash and
never overwritten, each with a listing for its payload.

An entry says by itself which pointer it refers to, and its listing says by
itself which app it is about. `validate` looks at the first and `browse` at
the second.
-/

namespace Intranet

/-! ## Append-sets -/

/-- Derives a collection's key from its network and name. -/
def collectionId (C : Crypto) (network : NetworkId) (name : String) : Hash :=
  C.hashBytes (Enc.domain "intranet.append-set-collection.v1" ++
    network.encode ++ Enc.str name)

def GovernanceState.isDelisted (s : GovernanceState) (pointer : PointerId) :
    Bool :=
  s.delisted.contains pointer

/-- The context checks every append-set-derived record must pass. -/
def validateEntryContext (publisher : PerNetworkIdentityId)
    (references : Option PointerId) (state : GovernanceState) :
    Except StorageError Unit :=
  if !state.isMember publisher then
    .error (.publisherNotAMember publisher.short)
  else
    match references with
    | none => .ok ()
    | some pointer =>
        if state.isDelisted pointer then
          .error (.referencesDelistedContent pointer.bytes.short)
        else .ok ()

/-- One independently-addressed entry in a collection. -/
structure AppendSetEntry where
  collectionId : Hash
  payload : List UInt8
  references : Option PointerId
  publisherIdentity : PerNetworkIdentityId
  signature : Signature
deriving DecidableEq

namespace AppendSetEntry

def payloadBytes (collectionId : Hash) (payload : List UInt8)
    (references : Option PointerId) (publisher : PerNetworkIdentityId) :
    List UInt8 :=
  Enc.domain "intranet.append-set-entry.v1" ++ Enc.fixed collectionId.bytes ++
    Enc.bytes payload ++ Enc.option references (fun p => Enc.fixed p.bytes) ++
    publisher.encode

def signedBytes (e : AppendSetEntry) : List UInt8 :=
  payloadBytes e.collectionId e.payload e.references e.publisherIdentity

/-- Creates and signs an entry. -/
def create {C : Crypto} {validKey : Bytes 32 → Bool}
    (publisher : PerNetworkIdentity C validKey) (collectionId : Hash)
    (payload : List UInt8) (references : Option PointerId) : AppendSetEntry :=
  { collectionId, payload, references
    publisherIdentity := publisher.id
    signature := publisher.sign
      (payloadBytes collectionId payload references publisher.id) }

/-- The entry's own content-addressed identifier. -/
def entryId (C : Crypto) (e : AppendSetEntry) : Hash :=
  C.hashBytes (e.signedBytes ++ Enc.fixed e.signature.bytes)

/-- Verifies the publisher's signature. -/
def verifySignature (C : Crypto) (e : AppendSetEntry) :
    Except StorageError Unit :=
  if C.verify e.publisherIdentity.key e.signedBytes e.signature then .ok ()
  else .error .badSignature

/-- Validates this entry: the signature, current membership, and that what it
refers to is not delisted. -/
def validate (C : Crypto) (e : AppendSetEntry) (state : GovernanceState) :
    Except StorageError Unit :=
  match e.verifySignature C with
  | .error err => .error err
  | .ok () => validateEntryContext e.publisherIdentity e.references state

end AppendSetEntry

/-- A locally-held view of one collection. -/
structure AppendSetView where
  collectionId : Hash
  entries : BTreeMap Hash AppendSetEntry
  truncated : Bool

namespace AppendSetView

/-- An empty view of a collection. -/
def new (collectionId : Hash) : AppendSetView := ⟨collectionId, ∅, false⟩

/-- Adds an entry after validating it. -/
def insert (C : Crypto) (view : AppendSetView) (entry : AppendSetEntry)
    (state : GovernanceState) : Except StorageError AppendSetView :=
  if entry.collectionId ≠ view.collectionId then .error .wrongCollection
  else
    match entry.validate C state with
    | .error err => .error err
    | .ok () =>
        .ok { view with
          entries := view.entries.insert (entry.entryId C) entry }

/-- Records that enumeration was cut short. -/
def markTruncated (view : AppendSetView) : AppendSetView :=
  { view with truncated := true }

/-- Drops entries that no longer validate, and how many. -/
def revalidate (C : Crypto) (view : AppendSetView) (state : GovernanceState) :
    ℕ × AppendSetView :=
  let kept := view.entries.filter fun _ entry =>
    (entry.validate C state).toOption.isSome
  (view.entries.size - kept.size, { view with entries := kept })

end AppendSetView

/-! ## The directory -/

/-- The collection key for a network's app directory. -/
def directoryCollection (C : Crypto) (network : NetworkId) : Hash :=
  collectionId C network "app-registry"

/-- What a directory entry advertises about an app. -/
structure DirectoryListing where
  name : AppName
  appId : PointerId
  title : String
  description : String
deriving DecidableEq

namespace DirectoryListing

def tag : String := "intranet.app-directory-listing.v1"

/-- Encodes this listing as an append-set payload. -/
def toPayload (l : DirectoryListing) : List UInt8 :=
  Enc.domain tag ++ Enc.str l.name.name ++ Enc.fixed l.appId.bytes ++
    Enc.str l.title ++ Enc.str l.description

/-- Publishes this listing to a network's directory index. -/
def announce {C : Crypto} {validKey : Bytes 32 → Bool} (l : DirectoryListing)
    (publisher : PerNetworkIdentity C validKey) (network : NetworkId) :
    AppendSetEntry :=
  .create publisher (directoryCollection C network) l.toPayload (some l.appId)

/-- The next `len` bytes, advancing the cursor. -/
def sliceAt (payload : List UInt8) (cursor len : ℕ) :
    Option (List UInt8 × ℕ) :=
  if UInt64.size ≤ cursor + len then none
  else if payload.length < cursor + len then none
  else some ((payload.drop cursor).take len, cursor + len)

/-- Reads a length-prefixed string, advancing the cursor. -/
def framedAt (payload : List UInt8) (cursor : ℕ) : Option (String × ℕ) := do
  let (lenBytes, cursor) ← sliceAt payload cursor 8
  let (bytes, cursor) ← sliceAt payload cursor (Dec.ofBigEndian lenBytes)
  let s ← String.fromUTF8? ⟨bytes.toArray⟩
  return (s, cursor)

/-- The next 32 bytes as a pointer, advancing the cursor. -/
def pointerAt (payload : List UInt8) (cursor : ℕ) :
    Option (PointerId × ℕ) := do
  let (bytes, cursor) ← sliceAt payload cursor 32
  if h : bytes.length = 32 then return (⟨⟨bytes, h⟩⟩, cursor) else none

/-- Parses a directory listing payload. -/
def parseListing (payload : List UInt8) : Option DirectoryListing := do
  let (found, cursor) ← framedAt payload 0
  if found ≠ tag then none
  else
    let (name, cursor) ← framedAt payload cursor
    let (appId, cursor) ← pointerAt payload cursor
    let (title, cursor) ← framedAt payload cursor
    let (description, cursor) ← framedAt payload cursor
    if cursor = payload.length then return ⟨⟨name⟩, appId, title, description⟩
    else none

end DirectoryListing

/-- Resolution of a name to the app it currently points at. -/
structure ResolvedName where
  name : AppName
  record : AppNameRecord
  delisted : Bool

namespace AppDirectory

/-- Resolves a name to its current owner and target. -/
def resolve (name : AppName) (state : GovernanceState) : Option ResolvedName :=
  state.appNames[name]?.map fun record =>
    ⟨name, record, state.isDelisted record.appId⟩

/-- One round of the loop of `browse`. -/
def shown (state : GovernanceState) (entry : AppendSetEntry) :
    Option (DirectoryListing × ResolvedName) :=
  match DirectoryListing.parseListing entry.payload with
  | none => none
  | some listing =>
      match resolve listing.name state with
      | none => none
      | some resolved =>
          if resolved.record.appId ≠ listing.appId then none
          else some (listing, resolved)

/-- Browses a network's app directory: what the index lists and the state
confirms, by name, and whether enumeration was cut short. -/
def browse (view : AppendSetView) (state : GovernanceState) :
    List (DirectoryListing × ResolvedName) × Bool :=
  ((view.entries.toList.filterMap fun e => shown state e.2).mergeSort
      (fun a b => decide (a.1.name ≤ b.1.name)),
    view.truncated)

end AppDirectory

end Intranet
