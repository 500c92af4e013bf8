import Intranet.Proofs.AppDirectory

/-!
# Listings parse exactly

The parser of listings has a cursor of its own. Each of its reads takes the
bytes from the cursor on, as many as it asks for, or fails: the sum is checked
before anything is sliced, so a length of up to `2 ^ 64 - 1` is refused where
the payload ends and no earlier (`sliceAt_iff`). So the cursor stays within
the payload, and what is left of the payload behind it is what was there
before less what was read. At the end nothing may be left, and a payload that
parses is the one its listing is written as (`parse_listing_exact`).
-/

namespace Intranet

namespace DirectoryListing

variable {payload slice : List UInt8} {cursor cursor' len : ℕ}

/-- A read answers within the payload, with the bytes at the cursor, and it
answers whenever there are as many. -/
theorem sliceAt_iff (hlen : payload.length < UInt64.size) :
    sliceAt payload cursor len = some (slice, cursor') ↔
      cursor' = cursor + len ∧ cursor' ≤ payload.length ∧
        slice = (payload.drop cursor).take len := by
  unfold sliceAt
  split
  · constructor
    · intro h
      cases h
    · rintro ⟨rfl, hle, -⟩
      omega
  · split
    · constructor
      · intro h
        cases h
      · rintro ⟨rfl, hle, -⟩
        omega
    · next hend =>
      rw [Option.some.injEq, Prod.mk.injEq]
      constructor
      · rintro ⟨rfl, rfl⟩
        exact ⟨rfl, by omega, rfl⟩
      · rintro ⟨rfl, -, rfl⟩
        exact ⟨rfl, rfl⟩

/-- A read moves the cursor past what it read. -/
structure Took (payload : List UInt8) (cursor : ℕ) (bytes : List UInt8)
    (cursor' : ℕ) : Prop where
  within : cursor' ≤ payload.length
  split : payload.drop cursor = bytes ++ payload.drop cursor'

theorem Took.append {bytes bytes' : List UInt8} {cursor'' : ℕ}
    (h : Took payload cursor bytes cursor')
    (h' : Took payload cursor' bytes' cursor'') :
    Took payload cursor (bytes ++ bytes') cursor'' :=
  ⟨h'.within, by rw [h.split, h'.split, List.append_assoc]⟩

theorem sliceAt_took
    (h : sliceAt payload cursor len = some (slice, cursor')) :
    Took payload cursor slice cursor' ∧ slice.length = len := by
  unfold sliceAt at h
  split at h
  · cases h
  · split at h
    · cases h
    · next hend =>
      cases h
      refine ⟨⟨Nat.not_lt.1 hend, ?_⟩, ?_⟩
      · rw [← List.drop_drop, List.take_append_drop]
      · rw [List.length_take, List.length_drop]
        omega

theorem framedAt_took {s : String}
    (h : framedAt payload cursor = some (s, cursor')) :
    Took payload cursor (Enc.str s) cursor' := by
  obtain ⟨⟨lenBytes, mid⟩, hcount, h⟩ := Option.bind_eq_some_iff.1 h
  obtain ⟨⟨bytes, last⟩, hbytes, h⟩ := Option.bind_eq_some_iff.1 h
  obtain ⟨found, hfound, h⟩ := Option.bind_eq_some_iff.1 h
  cases h
  obtain ⟨htook, hwidth⟩ := sliceAt_took hcount
  obtain ⟨hrest, hlen⟩ := sliceAt_took hbytes
  have hprefix : Enc.u64 (UInt64.ofNat bytes.length) = lenBytes := by
    rw [hlen]
    exact Dec.u64_ofBigEndian hwidth
  have hstr : Enc.str s = lenBytes ++ bytes := by
    rw [Enc.str, Dec.toByteArray_of_fromUTF8? hfound, Enc.bytes, hprefix]
  rw [hstr]
  exact htook.append hrest

theorem pointerAt_took {p : PointerId}
    (h : pointerAt payload cursor = some (p, cursor')) :
    Took payload cursor (Enc.fixed p.bytes) cursor' := by
  obtain ⟨⟨bytes, mid⟩, hbytes, h⟩ := Option.bind_eq_some_iff.1 h
  dsimp only at h
  split at h
  · cases h
    exact (sliceAt_took hbytes).1
  · cases h

/-- A payload that parses is what its listing is written as. -/
theorem eq_toPayload_of_parseListing {l : DirectoryListing}
    (h : parseListing payload = some l) : payload = l.toPayload := by
  obtain ⟨⟨found, c₁⟩, htag, h⟩ := Option.bind_eq_some_iff.1 h
  dsimp only at h
  split at h
  · cases h
  · next hfound =>
    rw [not_not] at hfound
    subst hfound
    obtain ⟨⟨name, c₂⟩, hname, h⟩ := Option.bind_eq_some_iff.1 h
    obtain ⟨⟨appId, c₃⟩, happ, h⟩ := Option.bind_eq_some_iff.1 h
    obtain ⟨⟨title, c₄⟩, htitle, h⟩ := Option.bind_eq_some_iff.1 h
    obtain ⟨⟨description, c₅⟩, hdescription, h⟩ :=
      Option.bind_eq_some_iff.1 h
    dsimp only at h
    split at h
    · next hend =>
      cases h
      have hall := ((((framedAt_took htag).append (framedAt_took hname)).append
        (pointerAt_took happ)).append (framedAt_took htitle)).append
          (framedAt_took hdescription)
      have hsplit := hall.split
      rwa [List.drop_zero, hend, List.drop_length, List.append_nil] at hsplit
    · cases h

/-- The parser of listings accepts exactly the encodings of listings. It reads
within the payload, whatever length is declared. -/
theorem parse_listing_exact (payload : List UInt8)
    (hlen : payload.length < UInt64.size) :
    (∀ l, parseListing payload = some l ↔ payload = l.toPayload) ∧
    (∀ cursor len, len < UInt64.size → ∀ slice cursor',
      sliceAt payload cursor len = some (slice, cursor') ↔
        cursor' = cursor + len ∧ cursor' ≤ payload.length ∧
          slice = (payload.drop cursor).take len) ∧
    (∀ cursor s cursor', framedAt payload cursor = some (s, cursor') →
      cursor' ≤ payload.length) ∧
    ∀ cursor p cursor', pointerAt payload cursor = some (p, cursor') →
      cursor' ≤ payload.length := by
  refine ⟨fun l => ⟨eq_toPayload_of_parseListing, ?_⟩,
    fun cursor len _ slice cursor' => sliceAt_iff hlen,
    fun cursor s cursor' h => (framedAt_took h).within,
    fun cursor p cursor' h => (pointerAt_took h).within⟩
  rintro rfl
  exact parseListing_toPayload l hlen

/-- A listing with a byte behind it. -/
theorem parse_listing_exact_trailing :
    parseListing ((Sample.wikiListing "Wiki").toPayload ++ [0]) =
        some (Sample.wikiListing "Wiki") ↔
      (Sample.wikiListing "Wiki").toPayload ++ [0] =
        (Sample.wikiListing "Wiki").toPayload :=
  (parse_listing_exact ((Sample.wikiListing "Wiki").toPayload ++ [0])
    (by decide +kernel)).1 _

end DirectoryListing

end Intranet
