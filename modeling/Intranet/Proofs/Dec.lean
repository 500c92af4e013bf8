import Intranet.Ref.Dec

/-!
# Every method of the decoder against its encoder

For each method of `Dec` two facts: on what the `Enc` method of the same name
wrote it reads the value back (`…_reads`), and whatever it accepts is what
that method writes (`…_ok`). The second is what makes the decoder refuse a
second spelling of an integer, a boolean or a string; the sequences pass on
what their item readers do.
-/

namespace Intranet

open Reader

/-! ## Big-endian numbers -/

namespace Enc

/-- Only the last `width` bytes of a number are written. -/
theorem bigEndian_add_mul {width k : ℕ} (h : width ≤ k) (a n : ℕ) :
    bigEndian width (a * 256 ^ k + n) = bigEndian width n := by
  induction width with
  | zero => rfl
  | succ width ih =>
      rw [bigEndian, bigEndian, ih (by omega)]
      obtain ⟨j, rfl⟩ : ∃ j, k = width + (j + 1) := ⟨k - width - 1, by omega⟩
      have hdiv : (a * 256 ^ (width + (j + 1)) + n) / 256 ^ width =
          n / 256 ^ width + 256 * (a * 256 ^ j) := by
        rw [show a * 256 ^ (width + (j + 1)) =
          256 ^ width * (256 * (a * 256 ^ j)) by ring, Nat.add_comm,
          Nat.add_mul_div_left _ _ (by positivity)]
      rw [hdiv]
      congr 1
      rw [← UInt8.toNat_inj, UInt8.toNat_ofNat', UInt8.toNat_ofNat']
      omega

end Enc

namespace Dec

theorem ofBigEndian_lt (b : List UInt8) : ofBigEndian b < 256 ^ b.length := by
  induction b with
  | nil => decide
  | cons byte rest ih =>
      rw [ofBigEndian, List.length_cons, Nat.pow_succ]
      have hbyte := byte.toNat_lt
      nlinarith

theorem ofBigEndian_bigEndian (width n : ℕ) :
    ofBigEndian (Enc.bigEndian width n) = n % 256 ^ width := by
  induction width with
  | zero => rw [Enc.bigEndian, ofBigEndian, Nat.pow_zero, Nat.mod_one]
  | succ width ih =>
      rw [Enc.bigEndian, ofBigEndian, ih, Enc.length_bigEndian,
        UInt8.toNat_ofNat', pow_succ 256 width, Nat.mod_mul (x := n),
        Nat.mul_comm, Nat.add_comm]

theorem bigEndian_ofBigEndian (b : List UInt8) :
    Enc.bigEndian b.length (ofBigEndian b) = b := by
  induction b with
  | nil => rfl
  | cons byte rest ih =>
      have hlt := ofBigEndian_lt rest
      rw [List.length_cons, Enc.bigEndian, ofBigEndian,
        Enc.bigEndian_add_mul (le_refl _), ih, Nat.add_comm,
        Nat.add_mul_div_right _ _ (by positivity), Nat.div_eq_of_lt hlt]
      simp

/-- Eight bytes and the number they spell. -/
theorem ofBigEndian_u64 (v : UInt64) : ofBigEndian (Enc.u64 v) = v.toNat := by
  rw [Enc.u64, ofBigEndian_bigEndian]
  exact Nat.mod_eq_of_lt v.toNat_lt

theorem u64_ofBigEndian {b : List UInt8} (h : b.length = 8) :
    Enc.u64 (UInt64.ofNat (ofBigEndian b)) = b := by
  have hlt := ofBigEndian_lt b
  rw [h] at hlt
  rw [Enc.u64, UInt64.toNat_ofNat_of_lt' hlt, ← h, bigEndian_ofBigEndian]

end Dec

/-! ## Fixed widths -/

namespace Dec

variable {ε α : Type} [FromDecodeError ε] {i rest : List UInt8}

theorem fail_ok {err : DecodeError} {r : α × List UInt8} :
    (fail err : Reader ε α) i = .ok r ↔ False :=
  throw_ok

theorem take_ok {n : ℕ} {b : Bytes n} :
    (take n : Reader ε (Bytes n)) i = .ok (b, rest) ↔ i = b.toList ++ rest := by
  rw [take]
  split
  · next hlt =>
      constructor
      · intro h
        cases h
      · intro h
        rw [h, List.length_append, b.length_eq] at hlt
        omega
  · next hlt =>
      rw [Except.ok.injEq, Prod.mk.injEq]
      constructor
      · intro h
        obtain ⟨rfl, rfl⟩ := h
        exact (List.take_append_drop n i).symm
      · intro h
        obtain ⟨b, hb⟩ := b
        subst h
        simp [List.take_left' hb, List.drop_left' hb]

theorem u8_ok {v : UInt8} :
    (u8 : Reader ε UInt8) i = .ok (v, rest) ↔ i = v :: rest := by
  constructor
  · intro h
    obtain ⟨b, mid, hb, h⟩ := bind_ok.1 h
    obtain ⟨rfl, rfl⟩ := pure_ok.1 h
    rw [take_ok.1 hb]
    obtain ⟨byte, hbyte⟩ := List.length_eq_one_iff.1 b.length_eq
    rw [hbyte]
    rfl
  · intro h
    subst h
    exact bind_ok.2 ⟨⟨[v], rfl⟩, rest, take_ok.2 rfl, rfl⟩

/-- A number of `width` bytes, read into a type that holds such numbers. -/
theorem bigEndian_ok {width : ℕ} (ofNat : ℕ → α) (toNat : α → ℕ)
    (hof : ∀ v, ofNat (toNat v) = v)
    (hto : ∀ n, n < 256 ^ width → toNat (ofNat n) = n)
    (hlt : ∀ v, toNat v < 256 ^ width) {v : α} :
    ((take width : Reader ε (Bytes width)) >>= fun b =>
        pure (ofNat (ofBigEndian b.toList))) i = .ok (v, rest) ↔
      i = Enc.bigEndian width (toNat v) ++ rest := by
  constructor
  · intro h
    obtain ⟨b, mid, hb, h⟩ := bind_ok.1 h
    obtain ⟨rfl, rfl⟩ := pure_ok.1 h
    have hbound := ofBigEndian_lt b.toList
    have hback := bigEndian_ofBigEndian b.toList
    rw [b.length_eq] at hbound hback
    rw [take_ok.1 hb, hto _ hbound, hback]
  · intro h
    refine bind_ok.2 ⟨⟨Enc.bigEndian width (toNat v),
      Enc.length_bigEndian width _⟩, rest, take_ok.2 h, ?_⟩
    refine pure_ok.2 ⟨?_, rfl⟩
    rw [ofBigEndian_bigEndian, Nat.mod_eq_of_lt (hlt v), hof]

theorem u32_ok {v : UInt32} :
    (u32 : Reader ε UInt32) i = .ok (v, rest) ↔ i = Enc.u32 v ++ rest :=
  bigEndian_ok UInt32.ofNat UInt32.toNat (fun v => UInt32.ofNat_toNat)
    (fun n hn => UInt32.toNat_ofNat_of_lt (by omega))
    (fun v => v.toNat_lt)

theorem u64_ok {v : UInt64} :
    (u64 : Reader ε UInt64) i = .ok (v, rest) ↔ i = Enc.u64 v ++ rest :=
  bigEndian_ok UInt64.ofNat UInt64.toNat (fun v => UInt64.ofNat_toNat)
    (fun n hn => UInt64.toNat_ofNat_of_lt (by omega))
    (fun v => v.toNat_lt)

theorem i64_ok {v : Int64} :
    (i64 : Reader ε Int64) i = .ok (v, rest) ↔ i = Enc.i64 v ++ rest :=
  bigEndian_ok (fun n => (UInt64.ofNat n).toInt64) (fun v => v.toUInt64.toNat)
    (fun v => by rw [UInt64.ofNat_toNat, Int64.toInt64_toUInt64])
    (fun n hn => by
      rw [UInt64.toUInt64_toInt64]
      exact UInt64.toNat_ofNat_of_lt (by omega))
    (fun v => v.toUInt64.toNat_lt)

theorem variant_ok {v : UInt8} :
    (variant : Reader ε UInt8) i = .ok (v, rest) ↔ i = Enc.variant v ++ rest :=
  u8_ok

theorem fixed_ok {n : ℕ} {b : Bytes n} :
    (fixed n : Reader ε (Bytes n)) i = .ok (b, rest) ↔
      i = Enc.fixed b ++ rest :=
  take_ok

theorem bool_ok {v : Bool} :
    (bool : Reader ε Bool) i = .ok (v, rest) ↔ i = Enc.bool v ++ rest := by
  constructor
  · intro h
    obtain ⟨byte, mid, hbyte, h⟩ := bind_ok.1 h
    rw [u8_ok.1 hbyte]
    split at h
    · obtain ⟨rfl, rfl⟩ := pure_ok.1 h
      rfl
    · obtain ⟨rfl, rfl⟩ := pure_ok.1 h
      rfl
    · exact (fail_ok.1 h).elim
  · intro h
    subst h
    refine bind_ok.2 ⟨_, rest, u8_ok.2 rfl, ?_⟩
    cases v <;> rfl

/-! ## Lengths, strings and sequences -/

theorem length_ok {n : ℕ} (h : (length : Reader ε ℕ) i = .ok (n, rest)) :
    i = Enc.u64 (UInt64.ofNat n) ++ rest := by
  obtain ⟨claimed, mid, hclaimed, h⟩ := bind_ok.1 h
  obtain ⟨left, mid', hleft, h⟩ := bind_ok.1 h
  cases hleft
  obtain ⟨u, mid', hcheck, h⟩ := bind_ok.1 h
  obtain ⟨-, rfl⟩ := check_ok.1 hcheck
  obtain ⟨rfl, rfl⟩ := pure_ok.1 h
  rw [u64_ok.1 hclaimed, UInt64.ofNat_toNat]

/-- A length is read back when that much input follows it. -/
theorem length_reads {n : ℕ} (hn : n < 2 ^ 64) (hle : n ≤ rest.length) :
    (length : Reader ε ℕ) (Enc.u64 (UInt64.ofNat n) ++ rest) =
      .ok (n, rest) := by
  have hback : (UInt64.ofNat n).toNat = n := UInt64.toNat_ofNat_of_lt hn
  rw [length, bind_of_ok (u64_ok.2 rfl), bind_of_ok rfl,
    bind_of_ok ((check_ok (u := ())).2 ⟨by rwa [hback], rfl⟩)]
  exact pure_ok.2 ⟨hback, rfl⟩

theorem bytes_ok {b : List UInt8}
    (h : (bytes : Reader ε (List UInt8)) i = .ok (b, rest)) :
    i = Enc.bytes b ++ rest := by
  obtain ⟨len, mid, hlen, h⟩ := bind_ok.1 h
  obtain ⟨slice, mid', hslice, h⟩ := bind_ok.1 h
  obtain ⟨rfl, rfl⟩ := pure_ok.1 h
  rw [length_ok hlen, take_ok.1 hslice, Enc.bytes, slice.length_eq,
    List.append_assoc]

theorem bytes_reads (b : List UInt8) :
    Reads (bytes : Reader ε (List UInt8)) (Enc.bytes b) b := by
  intro hlen rest
  rw [Enc.bytes, List.length_append] at hlen
  rw [Enc.bytes, List.append_assoc, bytes,
    bind_of_ok (length_reads (by omega) (by rw [List.length_append]; omega)),
    bind_of_ok ((take_ok (b := ⟨b, rfl⟩)).2 rfl)]
  rfl

theorem fromUTF8?_toByteArray (s : String) :
    String.fromUTF8? s.toByteArray = some s := by
  rw [String.fromUTF8?, dif_pos s.isValidUTF8]
  rfl

theorem toByteArray_of_fromUTF8? {b : ByteArray} {s : String}
    (h : String.fromUTF8? b = some s) : s.toByteArray = b := by
  rw [String.fromUTF8?] at h
  split at h
  · cases h
    rfl
  · cases h

theorem str_ok {s : String} (h : (str : Reader ε String) i = .ok (s, rest)) :
    i = Enc.str s ++ rest := by
  obtain ⟨b, mid, hb, h⟩ := bind_ok.1 h
  cases hs : String.fromUTF8? ⟨b.toArray⟩ with
  | none =>
      rw [hs] at h
      exact (fail_ok.1 h).elim
  | some read =>
      rw [hs] at h
      obtain ⟨rfl, rfl⟩ := pure_ok.1 h
      rw [bytes_ok hb, Enc.str, toByteArray_of_fromUTF8? hs]

theorem str_reads (s : String) :
    Reads (str : Reader ε String) (Enc.str s) s := by
  intro hlen rest
  have hbytes := bytes_reads (ε := ε) s.toByteArray.data.toList hlen rest
  rw [str, Enc.str, bind_of_ok hbytes]
  rw [Array.toArray_toList, show String.fromUTF8? ⟨s.toByteArray.data⟩ = some s
    from fromUTF8?_toByteArray s]
  rfl

theorem option_ok {p : Reader ε α} {f : α → List UInt8} {P : α → Prop}
    {E : Prop}
    (hp : ∀ {i a rest}, p i = .ok (a, rest) → P a ∧ (E → i = f a ++ rest))
    {v : Option α} (h : option p i = .ok (v, rest)) :
    (∀ a, v = some a → P a) ∧ (E → i = Enc.option v f ++ rest) := by
  obtain ⟨byte, mid, hbyte, h⟩ := bind_ok.1 h
  rw [u8_ok.1 hbyte]
  split at h
  · obtain ⟨rfl, rfl⟩ := pure_ok.1 h
    exact ⟨by simp, fun _ => rfl⟩
  · obtain ⟨a, mid', ha, h⟩ := bind_ok.1 h
    obtain ⟨rfl, rfl⟩ := pure_ok.1 h
    obtain ⟨hP, hexact⟩ := hp ha
    refine ⟨fun b hb => ?_, fun hE => ?_⟩
    · cases hb
      exact hP
    · rw [hexact hE]
      rfl
  · exact (fail_ok.1 h).elim

theorem option_reads {p : Reader ε α} {f : α → List UInt8} {v : Option α}
    (hp : ∀ a, v = some a → Reads p (f a) a) :
    Reads (option p) (Enc.option v f) v := by
  cases v with
  | none => exact fun _ rest => bind_of_ok (u8_ok.2 rfl)
  | some a =>
      refine Reads.bind (a := 1) (fun _ rest => u8_ok.2 rfl) ?_
      exact Reads.map (hp a rfl)

theorem seq_ok {p : Reader ε α} {f : α → List UInt8} {P : α → Prop}
    {E : Prop}
    (hp : ∀ {i a rest}, p i = .ok (a, rest) → P a ∧ (E → i = f a ++ rest))
    {items : List α} (h : seq p i = .ok (items, rest)) :
    (∀ a ∈ items, P a) ∧ (E → i = Enc.seq items f ++ rest) := by
  obtain ⟨count, mid, hcount, h⟩ := bind_ok.1 h
  obtain ⟨hlen, hall, hexact⟩ := times_ok (f := f) (fun ha => (hp ha).1) h
  refine ⟨hall, fun hE => ?_⟩
  rw [length_ok hcount, hexact fun ha => (hp ha).2 hE, Enc.seq, hlen,
    List.append_assoc]

/-- Items of at least one byte each are no more than the bytes they fill. -/
theorem length_le_flatMap {f : α → List UInt8} (hf : ∀ a, f a ≠ [])
    (items : List α) : items.length ≤ (items.flatMap f).length := by
  induction items with
  | nil => exact Nat.zero_le _
  | cons a items ih =>
      have hpos := List.length_pos_iff.2 (hf a)
      rw [List.flatMap_cons, List.length_append, List.length_cons]
      omega

theorem seq_reads {p : Reader ε α} {f : α → List UInt8} {items : List α}
    (hf : ∀ a, f a ≠ []) (hp : ∀ a ∈ items, Reads p (f a) a) :
    Reads (seq p) (Enc.seq items f) items := by
  intro hlen rest
  have hle := length_le_flatMap hf items
  rw [Enc.seq, List.length_append] at hlen
  rw [Enc.seq, List.append_assoc, seq,
    bind_of_ok (length_reads (by omega) (by rw [List.length_append]; omega))]
  exact Reads.times hp (by omega) rest

omit [FromDecodeError ε] in
theorem seq_map {β : Type} (items : List α) (f : α → β)
    (g : β → List UInt8) :
    Enc.seq (items.map f) g = Enc.seq items fun a => g (f a) := by
  rw [Enc.seq, Enc.seq, List.length_map, List.flatMap_map]

/-! ## Reading back a field -/

theorem fixed_reads {n : ℕ} (b : Bytes n) :
    Reads (fixed n : Reader ε (Bytes n)) (Enc.fixed b) b :=
  fun _ _ => fixed_ok.2 rfl

theorem i64_reads (v : Int64) :
    Reads (i64 : Reader ε Int64) (Enc.i64 v) v :=
  fun _ _ => i64_ok.2 rfl

theorem u64_reads (v : UInt64) :
    Reads (u64 : Reader ε UInt64) (Enc.u64 v) v :=
  fun _ _ => u64_ok.2 rfl

theorem u32_reads (v : UInt32) :
    Reads (u32 : Reader ε UInt32) (Enc.u32 v) v :=
  fun _ _ => u32_ok.2 rfl

theorem u8_reads (v : UInt8) :
    Reads (u8 : Reader ε UInt8) (Enc.u8 v) v :=
  fun _ _ => u8_ok.2 rfl

theorem bool_reads (v : Bool) :
    Reads (bool : Reader ε Bool) (Enc.bool v) v :=
  fun _ _ => bool_ok.2 rfl

omit [FromDecodeError ε] in
/-- A value that is one field in a wrapper. -/
theorem wrapped_ok {β : Type} {p : Reader ε α} {f : α → List UInt8}
    {wrap : α → β} (field : β → α)
    (hp : ∀ {i a rest}, p i = .ok (a, rest) → i = f a ++ rest)
    (hfield : ∀ a, field (wrap a) = a) {b : β}
    (h : (p >>= fun a => pure (wrap a)) i = .ok (b, rest)) :
    i = f (field b) ++ rest := by
  obtain ⟨a, mid, ha, h⟩ := bind_ok.1 h
  obtain ⟨rfl, rfl⟩ := pure_ok.1 h
  rw [hp ha, hfield]

/-- A fixed-width field that is checked, in a wrapper. -/
theorem checked_ok {β : Type} {n : ℕ} {valid : Bytes n → Bool} {err : ε}
    {wrap : Bytes n → β} (field : β → Bytes n)
    (hfield : ∀ b, field (wrap b) = b) (hwrap : ∀ v, wrap (field v) = v)
    {v : β} :
    ((do
      let b ← fixed n
      Reader.check (valid b = true) err
      return wrap b) : Reader ε β) i = .ok (v, rest) ↔
      valid (field v) = true ∧ i = Enc.fixed (field v) ++ rest := by
  constructor
  · intro h
    obtain ⟨b, mid, hb, h⟩ := bind_ok.1 h
    obtain ⟨u, mid', hcheck, h⟩ := bind_ok.1 h
    obtain ⟨hvalid, rfl⟩ := check_ok.1 hcheck
    obtain ⟨rfl, rfl⟩ := pure_ok.1 h
    rw [hfield]
    exact ⟨hvalid, fixed_ok.1 hb⟩
  · intro h
    obtain ⟨hvalid, hi⟩ := h
    refine bind_ok.2 ⟨field v, rest, fixed_ok.2 hi, ?_⟩
    refine bind_ok.2 ⟨(), rest, check_ok.2 ⟨hvalid, rfl⟩, ?_⟩
    exact pure_ok.2 ⟨hwrap v, rfl⟩

/-- An identity: a key, under whatever error a caller has for others. -/
theorem identity_ok {validKey : Bytes 32 → Bool} {err : ε}
    {id : PerNetworkIdentityId} :
    ((do
      let b ← fixed 32
      Reader.check (validKey b = true) err
      return ⟨⟨b⟩⟩) : Reader ε PerNetworkIdentityId) i = .ok (id, rest) ↔
      validKey id.key.bytes = true ∧ i = id.encode ++ rest :=
  checked_ok (fun id : PerNetworkIdentityId => id.key.bytes) (fun _ => rfl)
    fun _ => rfl

theorem identity_reads {validKey : Bytes 32 → Bool} {err : ε}
    {id : PerNetworkIdentityId} (h : validKey id.key.bytes = true) :
    Reads ((do
      let b ← fixed 32
      Reader.check (validKey b = true) err
      return ⟨⟨b⟩⟩) : Reader ε PerNetworkIdentityId) id.encode id :=
  fun _ _ => identity_ok.2 ⟨h, rfl⟩

/-- One branch of a sum, behind its discriminant. -/
theorem variant_reads {q : UInt8 → Reader ε α} {d : UInt8}
    {x : List UInt8} {a : α} (h : Reads (q d) x a) :
    Reads (variant >>= q) (Enc.variant d ++ x) a :=
  Reads.bind (u8_reads d) h

theorem variant_pure_reads {q : UInt8 → Reader ε α}
    {d : UInt8} {a : α} (h : q d = pure a) :
    Reads (variant >>= q) (Enc.variant d) a := by
  intro hlen rest
  rw [bind_of_ok (variant_ok.2 rfl), h]
  rfl

/-! ## Whole messages

A message is a domain tag, a value and nothing after it; some are checked
once more when the value is there. -/

theorem domain_ok {tag : String} {u : Unit}
    (h : (domain tag : Reader ε Unit) i = .ok (u, rest)) :
    i = Enc.domain tag ++ rest := by
  obtain ⟨found, mid, hfound, h⟩ := bind_ok.1 h
  obtain ⟨rfl, rfl⟩ := check_ok.1 h
  exact str_ok hfound

theorem domain_reads (tag : String) :
    Reads (domain tag : Reader ε Unit) (Enc.domain tag) () := by
  intro hlen rest
  rw [domain, Enc.domain, bind_of_ok (str_reads tag hlen rest)]
  exact check_ok.2 ⟨rfl, rfl⟩

theorem finish_ok {u : Unit} :
    (finish : Reader ε Unit) i = .ok (u, rest) ↔ i = [] ∧ rest = [] := by
  rw [finish, bind_of_ok rfl, check_ok, List.length_eq_zero_iff]
  constructor
  · intro h
    obtain ⟨rfl, rfl⟩ := h
    exact ⟨rfl, rfl⟩
  · intro h
    obtain ⟨rfl, rfl⟩ := h
    exact ⟨rfl, rfl⟩

omit [FromDecodeError ε] in
theorem decode_ok {p : Reader ε α} {b : List UInt8} {a : α} :
    decode p b = .ok a ↔ ∃ rest, p b = .ok (a, rest) := by
  rw [decode]
  cases hp : p b with
  | error err => simp [Except.map]
  | ok x =>
      obtain ⟨v, rest⟩ := x
      simp [Except.map]

section Frame

variable {β : Type} {p : Reader ε α} {q : α → Reader ε β} {tag : String}

theorem framed_reads {x : List UInt8} {a : α} {v : β} (hp : Reads p x a)
    (hq : Reads (q a) [] v) (hlen : (Enc.domain tag ++ x).length < 2 ^ 64) :
    decode (do
      domain tag
      let a ← p
      finish
      q a) (Enc.domain tag ++ x) = .ok v := by
  refine decode_ok.2 ⟨[], ?_⟩
  rw [List.length_append] at hlen
  rw [bind_of_ok (domain_reads tag (by omega) x)]
  have hx := hp (by omega) []
  rw [List.append_nil] at hx
  rw [bind_of_ok hx, bind_of_ok ((finish_ok (u := ())).2 ⟨rfl, rfl⟩)]
  exact hq (by decide) []

theorem framed_ok {b : List UInt8} {v : β} (h : decode (do
      domain tag
      let a ← p
      finish
      q a) b = .ok v) :
    ∃ x a rest, b = Enc.domain tag ++ x ∧ p x = .ok (a, []) ∧
      q a [] = .ok (v, rest) := by
  obtain ⟨rest, h⟩ := decode_ok.1 h
  obtain ⟨u, x, hdomain, h⟩ := bind_ok.1 h
  obtain ⟨a, y, ha, h⟩ := bind_ok.1 h
  obtain ⟨u, z, hfinish, h⟩ := bind_ok.1 h
  obtain ⟨rfl, rfl⟩ := finish_ok.1 hfinish
  exact ⟨x, a, rest, domain_ok hdomain, ha, h⟩

/-- A message mirrors its encoding if its value does. The checks at the end
pass what fits. -/
theorem framed_faithful {f : α → List UInt8} {q : α → Reader ε α}
    {fits : α → Prop}
    (hreads : ∀ a, fits a → Reads p (f a) a)
    (hok : ∀ {i a rest}, p i = .ok (a, rest) → i = f a ++ rest)
    (hpass : ∀ a, fits a → Reads (q a) [] a)
    (hsame : ∀ {a b i rest}, q a i = .ok (b, rest) → a = b) :
    Faithful (fun a => Enc.domain tag ++ f a) (decode (do
      domain tag
      let a ← p
      finish
      q a)) fits where
  back a hfits hlen := framed_reads (hreads a hfits) (hpass a hfits) hlen
  spelled b v h := by
    obtain ⟨x, a, rest, rfl, ha, hq⟩ := framed_ok h
    obtain rfl := hsame hq
    rw [hok ha, List.append_nil]

variable {f : α → List UInt8} {readable : α → Prop}

/-- A message without a signature. -/
theorem plain_faithful (hreads : ∀ a, readable a → Reads p (f a) a)
    (hok : ∀ {i a rest}, p i = .ok (a, rest) → i = f a ++ rest) :
    Faithful (fun a => Enc.domain tag ++ f a) (decode (do
      domain tag
      let a ← p
      finish
      return a)) readable :=
  framed_faithful hreads hok (fun a _ => Reads.pure a)
    fun h => (pure_ok.1 h).1

/-- A message that is checked once it is read. -/
theorem verified_faithful {verify : α → Except ε Unit}
    (hreads : ∀ a, readable a → Reads p (f a) a)
    (hok : ∀ {i a rest}, p i = .ok (a, rest) → i = f a ++ rest) :
    Faithful (fun a => Enc.domain tag ++ f a) (decode (do
      domain tag
      let a ← p
      finish
      Reader.ofExcept (verify a)
      return a)) fun a => readable a ∧ verify a = .ok () := by
  refine framed_faithful (fun a h => hreads a h.1) hok (fun a h => ?_) ?_
  · exact Reads.step (Reads.ofExcept h.2) (Reads.pure a)
  · intro a b i rest h
    obtain ⟨u, mid, hcheck, h⟩ := bind_ok.1 h
    exact (pure_ok.1 h).1

end Frame

end Dec

end Intranet
