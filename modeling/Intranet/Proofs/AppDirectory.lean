import Intranet.Lib.BTree
import Intranet.Lib.Run
import Intranet.Proofs.Dec
import Intranet.Ref.AppDirectory
import Intranet.Ref.Sample

/-!
# What the app directory shows

A listing that browsing returns is about a registered name, at the app the
governance state has for it. Nothing else in it is checked. Who published the
entry is not, nor how many entries list the name, and that the app is not
delisted is checked of what the entry says it refers to. So the directory
shows each name once and as its owner describes it exactly when the entries
it is built from are already so (`directory_faithful_iff`).

A payload is read back to the listing it was made from.
-/

namespace Intranet

/-! ## Listings as payloads -/

namespace DirectoryListing

variable {front rest : List UInt8}

theorem sliceAt_append (slice : List UInt8)
    (hlen : (front ++ (slice ++ rest)).length < UInt64.size) :
    sliceAt (front ++ (slice ++ rest)) front.length slice.length =
      some (slice, (front ++ slice).length) := by
  rw [List.length_append, List.length_append, UInt64.size] at hlen
  rw [sliceAt, UInt64.size, if_neg (by omega),
    if_neg (by rw [List.length_append, List.length_append]; omega),
    List.drop_left, List.take_left, List.length_append]

theorem bind_of_some {α β : Type} {o : Option α} {a : α} (f : α → Option β)
    (h : o = some a) : (o >>= f) = f a := by
  rw [h]
  rfl

theorem framedAt_append (s : String)
    (hlen : (front ++ (Enc.str s ++ rest)).length < UInt64.size) :
    framedAt (front ++ (Enc.str s ++ rest)) front.length =
      some (s, (front ++ Enc.str s).length) := by
  have hcount : s.toByteArray.data.toList.length < UInt64.size := by
    rw [Enc.str, Enc.bytes] at hlen
    simp only [List.length_append] at hlen
    exact lt_of_le_of_lt (by omega) hlen
  have hwidth : (Enc.u64 (UInt64.ofNat s.toByteArray.data.toList.length)).length
      = 8 := Enc.length_bigEndian 8 _
  rw [Enc.str, Enc.bytes, List.append_assoc] at hlen ⊢
  have hfirst := sliceAt_append _ hlen
  rw [hwidth] at hfirst
  rw [← List.append_assoc] at hlen
  have hsecond := sliceAt_append s.toByteArray.data.toList hlen
  rw [List.append_assoc] at hsecond
  rw [framedAt, bind_of_some _ hfirst]
  dsimp only
  rw [Dec.ofBigEndian_u64, UInt64.toNat_ofNat_of_lt' hcount,
    bind_of_some _ hsecond]
  dsimp only
  rw [bind_of_some _ (Dec.fromUTF8?_toByteArray s), List.append_assoc]
  rfl

theorem pointerAt_append (p : PointerId)
    (hlen : (front ++ (Enc.fixed p.bytes ++ rest)).length < UInt64.size) :
    pointerAt (front ++ (Enc.fixed p.bytes ++ rest)) front.length =
      some (p, (front ++ Enc.fixed p.bytes).length) := by
  have hwidth : (Enc.fixed p.bytes).length = 32 := p.bytes.length_eq
  have hslice := sliceAt_append _ hlen
  rw [hwidth] at hslice
  rw [pointerAt, bind_of_some _ hslice]
  dsimp only
  rw [dif_pos hwidth]
  rfl

/-- A listing's payload is read back to the listing. -/
theorem parseListing_toPayload (l : DirectoryListing)
    (hlen : l.toPayload.length < UInt64.size) :
    parseListing l.toPayload = some l := by
  rw [toPayload, Enc.domain] at hlen ⊢
  simp only [List.append_assoc] at hlen ⊢
  have htag := @framedAt_append [] _ tag hlen
  have hname := framedAt_append l.name.name hlen
  rw [← List.append_assoc] at hlen
  have happ := pointerAt_append l.appId hlen
  rw [← List.append_assoc] at hlen
  have htitle := framedAt_append l.title hlen
  rw [← List.append_assoc, ← List.append_nil (Enc.str l.description)] at hlen
  have hdescription := framedAt_append l.description hlen
  simp only [List.append_assoc, List.nil_append] at htag hname happ htitle
  simp only [List.append_nil, List.append_assoc] at hdescription
  rw [List.length_nil] at htag
  rw [parseListing, bind_of_some _ htag]
  dsimp only
  rw [if_neg (not_not.2 rfl), bind_of_some _ hname]
  dsimp only
  rw [bind_of_some _ happ]
  dsimp only
  rw [bind_of_some _ htitle]
  dsimp only
  rw [bind_of_some _ hdescription]
  dsimp only
  rw [if_pos rfl]
  rfl

end DirectoryListing

/-! ## Views -/

namespace AppendSetView

variable {C : Crypto} {s : GovernanceState} {view view' : AppendSetView}

/-- The views all of whose entries were inserted or revalidated under `s`. -/
inductive Under (C : Crypto) (s : GovernanceState) : AppendSetView → Prop where
  | new (collectionId : Hash) : Under C s (new collectionId)
  | insert {view view' : AppendSetView} (entry : AppendSetEntry) :
      Under C s view → view.insert C entry s = .ok view' → Under C s view'
  | revalidate (view : AppendSetView) : Under C s (view.revalidate C s).2
  | markTruncated {view : AppendSetView} :
      Under C s view → Under C s view.markTruncated

theorem insert_ok {entry : AppendSetEntry}
    (h : view.insert C entry s = .ok view') :
    entry.validate C s = .ok () ∧
      view' = { view with
        entries := view.entries.insert (entry.entryId C) entry } := by
  unfold insert at h
  split at h
  · cases h
  · split at h
    · cases h
    · next hvalid =>
        cases h
        exact ⟨hvalid, rfl⟩

/-- Each entry of such a view validates under `s`. -/
theorem Under.validates (h : view.Under C s) {id : Hash}
    {entry : AppendSetEntry} (hentry : view.entries[id]? = some entry) :
    entry.validate C s = .ok () := by
  induction h generalizing id entry with
  | new collectionId => cases hentry
  | insert added _ hinsert ih =>
      obtain ⟨hvalid, rfl⟩ := insert_ok hinsert
      rw [BTreeMap.getElem?_insert_ite] at hentry
      split at hentry
      · cases hentry
        exact hvalid
      · exact ih hentry
  | revalidate view =>
      have hkept : ((entry.validate C s).toOption.isSome) = true := by
        unfold AppendSetView.revalidate at hentry
        rw [Std.ExtTreeMap.getElem?_filter'] at hentry
        exact (Option.filter_eq_some_iff.1 hentry).2
      cases hvalid : entry.validate C s with
      | error err =>
          rw [hvalid] at hkept
          cases hkept
      | ok u => rfl
  | markTruncated _ ih => exact ih hentry

/-- What a validated entry says it refers to is not delisted. -/
theorem Under.not_delisted (h : view.Under C s) {id : Hash}
    {entry : AppendSetEntry} (hentry : view.entries[id]? = some entry)
    {pointer : PointerId} (href : entry.references = some pointer) :
    s.isDelisted pointer = false := by
  have hvalid := h.validates hentry
  unfold AppendSetEntry.validate validateEntryContext at hvalid
  rw [href] at hvalid
  split at hvalid
  · cases hvalid
  · split at hvalid
    · cases hvalid
    · dsimp only at hvalid
      split at hvalid
      · cases hvalid
      · next hfree => exact Bool.eq_false_iff.2 hfree

end AppendSetView

/-! ## Browsing -/

namespace AppDirectory

variable {C : Crypto} {s : GovernanceState} {view : AppendSetView}
  {entry : AppendSetEntry} {shownAs : DirectoryListing × ResolvedName}

/-- The payload is a listing of a registered name, at the app of the name's
record. -/
structure Lists (s : GovernanceState) (entry : AppendSetEntry)
    (listing : DirectoryListing) (record : AppNameRecord) : Prop where
  parses : DirectoryListing.parseListing entry.payload = some listing
  registered : s.appNames[listing.name]? = some record
  sameApp : record.appId = listing.appId

theorem shown_iff :
    shown s entry = some shownAs ↔
      Lists s entry shownAs.1 shownAs.2.record ∧
        shownAs.2 = ⟨shownAs.1.name, shownAs.2.record,
          s.isDelisted shownAs.2.record.appId⟩ := by
  obtain ⟨listing, resolved⟩ := shownAs
  unfold shown resolve
  constructor
  · intro h
    split at h
    · cases h
    next parsed hparsed =>
    split at h
    · cases h
    next found hfound =>
    obtain ⟨record, hrecord, rfl⟩ := Option.map_eq_some_iff.1 hfound
    split at h
    · cases h
    next hsame =>
    cases h
    exact ⟨⟨hparsed, hrecord, not_not.1 hsame⟩, rfl⟩
  · rintro ⟨⟨hparses, hregistered, hsame⟩, hresolved⟩
    dsimp only at hparses hregistered hsame hresolved
    rw [hparses]
    simp only [hregistered, Option.map_some]
    rw [if_neg (not_not.2 hsame), ← hresolved]

theorem mem_browse :
    shownAs ∈ (browse view s).1 ↔
      ∃ (id : Hash) (entry : AppendSetEntry), view.entries[id]? = some entry ∧
        shown s entry = some shownAs := by
  unfold browse
  rw [List.mem_mergeSort, List.mem_filterMap]
  constructor
  · rintro ⟨⟨id, entry⟩, hmem, hshown⟩
    exact ⟨id, entry, (BTreeMap.mem_toList_iff _ _).1 hmem, hshown⟩
  · rintro ⟨id, entry, hentry, hshown⟩
    exact ⟨(id, entry), (BTreeMap.mem_toList_iff _ _).2 hentry, hshown⟩

/-- Each name is shown once exactly when no two entries show one name. -/
theorem nodup_browse_iff :
    ((browse view s).1.map fun l => l.1.name).Nodup ↔
      ∀ (id id' : Hash) (entry entry' : AppendSetEntry)
        (a b : DirectoryListing × ResolvedName),
        view.entries[id]? = some entry → view.entries[id']? = some entry' →
        shown s entry = some a → shown s entry' = some b →
        a.1.name = b.1.name → id = id' := by
  unfold browse
  rw [((List.mergeSort_perm _ _).map _).nodup_iff, List.Nodup,
    List.pairwise_map, List.pairwise_filterMap]
  constructor
  · intro h id id' entry entry' a b hentry hentry' ha hb hname
    by_contra hne
    have hsymm : Std.Symm fun p q : Hash × AppendSetEntry =>
        ∀ a, shown s p.2 = some a → ∀ b, shown s q.2 = some b →
          a.1.name ≠ b.1.name :=
      ⟨fun p q hpq a ha b hb => (hpq b hb a ha).symm⟩
    exact h.forall ((BTreeMap.mem_toList_iff _ (id, entry)).2 hentry)
      ((BTreeMap.mem_toList_iff _ (id', entry')).2 hentry')
      (fun heq => hne (congrArg Prod.fst heq)) a ha b hb hname
  · intro h
    refine view.entries.nodup_toList.pairwise_of_forall_ne ?_
    intro p hp q hq hne a ha b hb hname
    rw [BTreeMap.mem_toList_iff] at hp hq
    have hid := h p.1 q.1 p.2 q.2 a b hp hq ha hb hname
    rw [hid, hq] at hp
    exact hne (Prod.ext hid (Option.some.inj hp).symm)

/-- Each name is shown once, at the app of its record, as an entry of the
record's owner describes it, and no app that is delisted is shown. -/
structure Faithful (view : AppendSetView) (s : GovernanceState) : Prop where
  once : ((browse view s).1.map fun l => l.1.name).Nodup
  owned : ∀ l ∈ (browse view s).1, ∃ (id : Hash)
    (entry : AppendSetEntry) (record : AppNameRecord),
    view.entries[id]? = some entry ∧ s.appNames[l.1.name]? = some record ∧
      entry.publisherIdentity = record.owner ∧
      DirectoryListing.parseListing entry.payload = some l.1
  target : ∀ l ∈ (browse view s).1, ∃ record,
    s.appNames[l.1.name]? = some record ∧ l.1.appId = record.appId
  live : ∀ l ∈ (browse view s).1, s.isDelisted l.1.appId = false

/-- The directory shows each name once and as its owner describes it if and
only if of the entries that list a registered name at its app every one was
published by the owner and, where that app is delisted, refers to it, and no
two list the same name. -/
theorem directory_faithful_iff (C : Crypto) (s : GovernanceState)
    (view : AppendSetView) (hview : view.Under C s) :
    Faithful view s ↔
      (∀ (id : Hash) (entry : AppendSetEntry) listing record, view.entries[id]? = some entry →
        Lists s entry listing record →
        entry.publisherIdentity = record.owner ∧
          (s.isDelisted listing.appId = true →
            entry.references = some listing.appId)) ∧
      ∀ (id id' : Hash) (entry entry' : AppendSetEntry) listing listing' record
        record', view.entries[id]? = some entry → view.entries[id']? = some entry' →
        Lists s entry listing record → Lists s entry' listing' record' →
        listing.name = listing'.name → id = id' := by
  have hshows : ∀ {entry : AppendSetEntry} {listing : DirectoryListing}
      {record : AppNameRecord}, Lists s entry listing record →
      shown s entry = some (listing, ⟨listing.name, record,
        s.isDelisted record.appId⟩) :=
    fun hlists => shown_iff.2 ⟨hlists, rfl⟩
  constructor
  · intro h
    have honce := nodup_browse_iff.1 h.once
    refine ⟨fun id entry listing record hentry hlists => ?_,
      fun id id' entry entry' _ _ _ _ hentry hentry' hlists hlists' hname =>
        honce id id' entry entry' _ _ hentry hentry' (hshows hlists)
          (hshows hlists') hname⟩
    have hmem := mem_browse.2 ⟨id, entry, hentry, hshows hlists⟩
    constructor
    · obtain ⟨id', entry', found, hentry', hfound, howner, hparses⟩ :=
        h.owned _ hmem
      rw [hlists.registered] at hfound
      cases hfound
      -- the owner's entry lists the same, so it is this one
      have hid := honce id id' entry entry' _ _ hentry hentry' (hshows hlists)
        (hshows ⟨hparses, hlists.registered, hlists.sameApp⟩) rfl
      rw [← hid, hentry] at hentry'
      cases hentry'
      exact howner
    · intro hdelisted
      rw [h.live _ hmem] at hdelisted
      cases hdelisted
  · rintro ⟨hsound, hunique⟩
    refine ⟨nodup_browse_iff.2 ?_, fun l hl => ?_, fun l hl => ?_,
      fun l hl => ?_⟩
    · intro id id' entry entry' a b hentry hentry' ha hb hname
      exact hunique id id' entry entry' _ _ _ _ hentry hentry'
        (shown_iff.1 ha).1 (shown_iff.1 hb).1 hname
    · obtain ⟨id, entry, hentry, hshown⟩ := mem_browse.1 hl
      have hlists := (shown_iff.1 hshown).1
      exact ⟨id, entry, _, hentry, hlists.registered,
        (hsound _ _ _ _ hentry hlists).1, hlists.parses⟩
    · obtain ⟨id, entry, hentry, hshown⟩ := mem_browse.1 hl
      have hlists := (shown_iff.1 hshown).1
      exact ⟨_, hlists.registered, hlists.sameApp.symm⟩
    · obtain ⟨id, entry, hentry, hshown⟩ := mem_browse.1 hl
      have hlists := (shown_iff.1 hshown).1
      by_contra hdelisted
      rw [Bool.not_eq_false] at hdelisted
      have href := (hsound _ _ _ _ hentry hlists).2 hdelisted
      rw [hview.not_delisted hentry href] at hdelisted
      cases hdelisted

end AppDirectory

/-! ## A stranger's description -/

namespace Sample

/-- Identity 1 founds a network, admits 2 and registers a name. -/
def wikiChain : List LogEntry :=
  [genesis 0 NetworkPolicy.conservativeDefault [],
    entry 1 (some 0) 1 1 (admits 2),
    entry 2 (some 1) 2 1 (.appNameRegistration ⟨"wiki"⟩ ⟨Bytes.ofNat 32 9⟩)]

def wikiListing (title : String) : DirectoryListing :=
  ⟨⟨"wiki"⟩, ⟨Bytes.ofNat 32 9⟩, title, ""⟩

/-- An entry of `publisher` with a listing of the name at its app. -/
def wikiEntry (publisher : ℕ) (title : String) : AppendSetEntry :=
  ⟨directoryCollection .sample network, (wikiListing title).toPayload, none,
    identity publisher, signature publisher 0⟩

def wikiView (publisher : ℕ) (title : String) : AppendSetView :=
  ⟨directoryCollection .sample network,
    (∅ : BTreeMap Hash AppendSetEntry).insert
      ((wikiEntry publisher title).entryId .sample) (wikiEntry publisher title),
    false⟩

theorem replay_wikiChain : ∃ s,
    GovernanceState.replay .sample wikiChain = .ok s ∧
      s.isMember (identity 1) = true ∧ s.isMember (identity 2) = true ∧
      s.appNames[(⟨"wiki"⟩ : AppName)]? =
        some ⟨⟨Bytes.ofNat 32 9⟩, identity 1, ⟨2⟩⟩ := by
  have hcheck : Run.okAnd (GovernanceState.replay .sample wikiChain) (fun s =>
      s.isMember (identity 1) && (s.isMember (identity 2) &&
        decide (s.appNames[(⟨"wiki"⟩ : AppName)]? =
          some ⟨⟨Bytes.ofNat 32 9⟩, identity 1, ⟨2⟩⟩))) = true := by
    decide +kernel
  obtain ⟨s, hs, hall⟩ := Run.okAnd_iff.1 hcheck
  rw [Bool.and_eq_true, Bool.and_eq_true] at hall
  exact ⟨s, hs, hall.1, hall.2.1, of_decide_eq_true hall.2.2⟩

theorem under_wikiView {s : GovernanceState} (publisher : ℕ) (title : String)
    (hmember : s.isMember (identity publisher) = true) :
    (wikiView publisher title).Under .sample s := by
  refine .insert (wikiEntry publisher title)
    (.new (directoryCollection .sample network)) ?_
  have hsigned : (wikiEntry publisher title).verifySignature .sample =
      .ok () :=
    if_pos (verify_first publisher _)
  have hvalid : (wikiEntry publisher title).validate .sample s = .ok () := by
    rw [AppendSetEntry.validate, hsigned]
    dsimp only
    unfold validateEntryContext
    rw [show (wikiEntry publisher title).publisherIdentity = identity publisher
      from rfl, hmember]
    rfl
  have hhome : ¬(wikiEntry publisher title).collectionId ≠
      (AppendSetView.new (directoryCollection .sample network)).collectionId :=
    not_not.2 rfl
  rw [AppendSetView.insert, if_neg hhome, hvalid]
  rfl

end Sample

namespace AppDirectory

/-- A name that its owner lists, and nobody else. -/
theorem directory_faithful_iff_wiki : ∃ s,
    GovernanceState.replay .sample Sample.wikiChain = .ok s ∧
    (Faithful (Sample.wikiView 1 "Wiki") s ↔
      (∀ (id : Hash) (entry : AppendSetEntry) listing record,
        (Sample.wikiView 1 "Wiki").entries[id]? = some entry →
        Lists s entry listing record →
        entry.publisherIdentity = record.owner ∧
          (s.isDelisted listing.appId = true →
            entry.references = some listing.appId)) ∧
      ∀ (id id' : Hash) (entry entry' : AppendSetEntry) listing listing' record
        record', (Sample.wikiView 1 "Wiki").entries[id]? = some entry →
        (Sample.wikiView 1 "Wiki").entries[id']? = some entry' →
        Lists s entry listing record → Lists s entry' listing' record' →
        listing.name = listing'.name → id = id') := by
  obtain ⟨s, hs, hmember, -, -⟩ := Sample.replay_wikiChain
  exact ⟨s, hs, directory_faithful_iff .sample s (Sample.wikiView 1 "Wiki")
    (Sample.under_wikiView 1 "Wiki" hmember)⟩

/-- The one entry is by member 2, who names the app rightly and describes it
at will. The directory shows it under the name that 1 owns. -/
theorem stranger_describes_name : ∃ s,
    GovernanceState.replay .sample Sample.wikiChain = .ok s ∧
    (Sample.wikiView 2 "Closed, use mine").Under .sample s ∧
    ¬Faithful (Sample.wikiView 2 "Closed, use mine") s := by
  obtain ⟨s, hs, -, hmember, hname⟩ := Sample.replay_wikiChain
  refine ⟨s, hs, Sample.under_wikiView 2 _ hmember, fun h => ?_⟩
  have hentry : (Sample.wikiView 2 "Closed, use mine").entries[
      (Sample.wikiEntry 2 "Closed, use mine").entryId .sample]? =
        some (Sample.wikiEntry 2 "Closed, use mine") := by
    rw [Sample.wikiView, BTreeMap.getElem?_insert_ite, if_pos rfl]
  have hparses : DirectoryListing.parseListing
      (Sample.wikiEntry 2 "Closed, use mine").payload =
        some (Sample.wikiListing "Closed, use mine") :=
    DirectoryListing.parseListing_toPayload _ (by decide +kernel)
  have hshown : shown s (Sample.wikiEntry 2 "Closed, use mine") =
      some (Sample.wikiListing "Closed, use mine",
        ⟨⟨"wiki"⟩, ⟨⟨Bytes.ofNat 32 9⟩, Sample.identity 1, ⟨2⟩⟩,
          s.isDelisted ⟨Bytes.ofNat 32 9⟩⟩) :=
    shown_iff.2 ⟨⟨hparses, hname, rfl⟩, rfl⟩
  obtain ⟨id, entry, record, hfound, hrecord, howner, -⟩ :=
    h.owned _ (mem_browse.2 ⟨_, _, hentry, hshown⟩)
  rw [Sample.wikiView, BTreeMap.getElem?_insert_ite] at hfound
  split at hfound
  · cases hfound
    have hsame : s.appNames[(⟨"wiki"⟩ : AppName)]? = some record := hrecord
    rw [hname, Option.some.injEq] at hsame
    rw [← hsame] at howner
    exact absurd howner (by decide +kernel)
  · cases hfound

end AppDirectory

end Intranet
