import Mathlib

/-!
# Byte encodings and readers

A value is written as bytes and read back by a reader that takes it off the
front of its input. Two questions come up about such a pair. `Reads p b a`
is the round trip: on `b`, followed by anything, `p` answers `a` and leaves
what followed. The converse, that an accepted input is the encoding of its
value, has no definition of its own: it is proved reader by reader, by taking
the run apart with `bind_ok`.

`SelfDelimiting f` is about the encoding alone, without a reader: an
encoding followed by anything determines both the value and what follows.
It composes field by field, so the injectivity of a long record is read off
its fields.

Lengths and counts are written into eight bytes, so all of it is about
encodings shorter than `2 ^ 64`; the bound is part of these notions and is
asked for once, of the whole.

`Faithful` puts the two together for whole messages: what fits comes back from
its encoding, and nothing but the encoding of a value decodes to it.
-/

/-- A reader takes a value off the front of its input, or fails. -/
abbrev Reader (ε α : Type) := StateT (List UInt8) (Except ε) α

namespace Reader

variable {ε α β : Type}

theorem bind_ok {p : Reader ε α} {q : α → Reader ε β} {i : List UInt8}
    {r : β × List UInt8} :
    (p >>= q) i = .ok r ↔ ∃ a rest, p i = .ok (a, rest) ∧ q a rest = .ok r := by
  change (p i >>= fun x => q x.1 x.2) = .ok r ↔ _
  cases hp : p i with
  | error err =>
      constructor
      · intro h
        cases h
      · intro h
        obtain ⟨a, rest, h, -⟩ := h
        cases h
  | ok x =>
      constructor
      · intro h
        exact ⟨x.1, x.2, rfl, h⟩
      · intro h
        obtain ⟨a, rest, h, hq⟩ := h
        cases h
        exact hq

theorem bind_of_ok {p : Reader ε α} {q : α → Reader ε β} {i rest : List UInt8}
    {a : α} (h : p i = .ok (a, rest)) : (p >>= q) i = q a rest := by
  change (p i >>= fun x => q x.1 x.2) = _
  rw [h]
  rfl

theorem pure_ok {a b : α} {i rest : List UInt8} :
    (pure a : Reader ε α) i = .ok (b, rest) ↔ a = b ∧ i = rest := by
  change Except.ok (a, i) = Except.ok (b, rest) ↔ _
  rw [Except.ok.injEq, Prod.mk.injEq]

theorem throw_ok {err : ε} {i : List UInt8} {r : α × List UInt8} :
    (throw err : Reader ε α) i = .ok r ↔ False := by
  constructor
  · intro h
    cases h
  · exact False.elim

/-- Fails with `err` unless `c` holds. -/
def check (c : Prop) [Decidable c] (err : ε) : Reader ε Unit :=
  if c then pure () else throw err

theorem check_ok {c : Prop} [Decidable c] {err : ε} {u : Unit}
    {i rest : List UInt8} :
    check c err i = .ok (u, rest) ↔ c ∧ i = rest := by
  rw [check]
  split
  · next hc => simp [pure_ok, hc]
  · next hc => simp [throw_ok, hc]

/-- An outcome from elsewhere, as a step that reads nothing. -/
def ofExcept (x : Except ε α) : Reader ε α := fun i => x.map fun a => (a, i)

theorem ofExcept_ok {x : Except ε α} {a : α} {i rest : List UInt8} :
    ofExcept x i = .ok (a, rest) ↔ x = .ok a ∧ i = rest := by
  cases x <;> simp [ofExcept, Except.map]

/-- `p`, as many times as given. -/
def times (p : Reader ε α) : ℕ → Reader ε (List α)
  | 0 => pure []
  | n + 1 => do
      let a ← p
      let rest ← times p n
      return a :: rest

/-! ## Round trips -/

/-- On `bytes`, followed by anything, `p` reads `a` and leaves the rest. -/
def Reads (p : Reader ε α) (bytes : List UInt8) (a : α) : Prop :=
  bytes.length < 2 ^ 64 → ∀ rest, p (bytes ++ rest) = .ok (a, rest)

theorem Reads.pure (a : α) : Reads (pure a : Reader ε α) [] a :=
  fun _ _ => rfl

theorem Reads.check {c : Prop} [Decidable c] {err : ε} (h : c) :
    Reads (check c err) [] () := by
  intro _ rest
  exact check_ok.2 ⟨h, rfl⟩

theorem Reads.ofExcept {x : Except ε α} {a : α} (h : x = .ok a) :
    Reads (ofExcept x) [] a := by
  intro _ rest
  exact ofExcept_ok.2 ⟨h, rfl⟩

theorem Reads.bind {p : Reader ε α} {q : α → Reader ε β} {x y : List UInt8}
    {a : α} {b : β} (hp : Reads p x a) (hq : Reads (q a) y b) :
    Reads (p >>= q) (x ++ y) b := by
  intro hlen rest
  rw [List.length_append] at hlen
  rw [List.append_assoc, bind_of_ok (hp (by omega) (y ++ rest))]
  exact hq (by omega) rest

/-- A step that reads nothing, before the rest. -/
theorem Reads.step {p : Reader ε α} {q : α → Reader ε β} {y : List UInt8}
    {a : α} {b : β} (hp : Reads p [] a) (hq : Reads (q a) y b) :
    Reads (p >>= q) y b :=
  Reads.bind hp hq

/-- A step that reads nothing, after the rest. -/
theorem Reads.andThen {p : Reader ε α} {q : α → Reader ε β} {x : List UInt8}
    {a : α} {b : β} (hp : Reads p x a) (hq : Reads (q a) [] b) :
    Reads (p >>= q) x b := by
  have h := Reads.bind hp hq
  rwa [List.append_nil] at h

/-- The last field of a record. -/
theorem Reads.map {p : Reader ε α} {f : α → β} {x : List UInt8} {a : α}
    (hp : Reads p x a) : Reads (p >>= fun a => Pure.pure (f a)) x (f a) :=
  Reads.andThen hp (Reads.pure (f a))

theorem Reads.times {p : Reader ε α} {f : α → List UInt8} {items : List α}
    (h : ∀ a ∈ items, Reads p (f a) a) :
    Reads (times p items.length) (items.flatMap f) items := by
  induction items with
  | nil => exact Reads.pure []
  | cons a items ih =>
      rw [List.flatMap_cons]
      refine Reads.bind (h a List.mem_cons_self) (Reads.map ?_)
      exact ih fun b hb => h b (List.mem_cons_of_mem a hb)

/-- What `times` read, it read item by item. -/
theorem times_ok {p : Reader ε α} {f : α → List UInt8} {P : α → Prop}
    (hp : ∀ {i a rest}, p i = .ok (a, rest) → P a)
    {n : ℕ} {items : List α} {i rest : List UInt8}
    (h : times p n i = .ok (items, rest)) :
    items.length = n ∧ (∀ a ∈ items, P a) ∧
      ((∀ {i a rest}, p i = .ok (a, rest) → i = f a ++ rest) →
        i = items.flatMap f ++ rest) := by
  induction n generalizing items i with
  | zero =>
      obtain ⟨rfl, rfl⟩ := pure_ok.1 h
      exact ⟨rfl, by simp, fun _ => rfl⟩
  | succ n ih =>
      obtain ⟨a, mid, ha, h⟩ := bind_ok.1 h
      obtain ⟨tail, last, htail, h⟩ := bind_ok.1 h
      obtain ⟨rfl, rfl⟩ := pure_ok.1 h
      obtain ⟨hlen, hall, hexact⟩ := ih htail
      refine ⟨by rw [List.length_cons, hlen], ?_, fun hf => ?_⟩
      · intro b hb
        rcases List.mem_cons.1 hb with rfl | hb
        · exact hp ha
        · exact hall b hb
      · rw [hf ha, hexact hf, List.flatMap_cons, List.append_assoc]

end Reader

/-- An encoder and a decoder of whole messages that mirror each other: a value
that fits is decoded from its encoding, and a value that is decoded has the
input for its encoding. -/
structure Faithful {ε α : Type} (encode : α → List UInt8)
    (decode : List UInt8 → Except ε α) (fits : α → Prop) : Prop where
  back : ∀ a, fits a → (encode a).length < 2 ^ 64 → decode (encode a) = .ok a
  spelled : ∀ b a, decode b = .ok a → b = encode a

/-! ## Self-delimiting encodings -/

/-- An encoding followed by anything determines the value and what follows. -/
def SelfDelimiting {α : Type} (f : α → List UInt8) : Prop :=
  ∀ (v w : α) (r s : List UInt8), (f v ++ r).length < 2 ^ 64 →
    f v ++ r = f w ++ s → v = w ∧ r = s

namespace SelfDelimiting

variable {α β : Type} {f : α → List UInt8}

/-- Nothing but the value's own bytes is needed to tell it. -/
theorem injective (hf : SelfDelimiting f) {v w : α}
    (hlen : (f v).length < 2 ^ 64) (h : f v = f w) : v = w := by
  refine (hf v w [] [] ?_ ?_).1
  · rwa [List.append_nil]
  · rw [h]

/-- The first field of a record, split off: it agrees, and what is left can
be split further. -/
theorem split (hf : SelfDelimiting f) {v w : α} {r s : List UInt8}
    (hlen : (f v ++ r).length < 2 ^ 64) (h : f v ++ r = f w ++ s) :
    v = w ∧ r = s ∧ r.length < 2 ^ 64 := by
  obtain ⟨hv, hr⟩ := hf v w r s hlen h
  rw [List.length_append] at hlen
  exact ⟨hv, hr, by omega⟩

/-- A value that is written as another one it determines. -/
theorem comap (hf : SelfDelimiting f) {inner : β → α}
    (hinj : Function.Injective inner) : SelfDelimiting fun b => f (inner b) := by
  intro v w r s hlen h
  obtain ⟨hv, hr⟩ := hf _ _ r s hlen h
  exact ⟨hinj hv, hr⟩

/-- What a reader takes off the front of anything is delimited. -/
theorem ofReads {ε : Type} {p : Reader ε α}
    (hp : ∀ a, Reader.Reads p (f a) a) : SelfDelimiting f := by
  intro v w r s hlen h
  have hw := congrArg List.length h
  rw [List.length_append] at hlen hw
  rw [List.length_append] at hw
  have hread := hp v (by omega) r
  rw [h, hp w (by omega) s] at hread
  cases hread
  exact ⟨rfl, rfl⟩

theorem flatMap (hf : SelfDelimiting f) {xs ys : List α} {r s : List UInt8}
    (hxy : xs.length = ys.length) (hlen : (xs.flatMap f ++ r).length < 2 ^ 64)
    (h : xs.flatMap f ++ r = ys.flatMap f ++ s) : xs = ys ∧ r = s := by
  induction xs generalizing ys with
  | nil =>
      cases ys with
      | nil => exact ⟨rfl, h⟩
      | cons y ys => cases hxy
  | cons x xs ih =>
      cases ys with
      | nil => cases hxy
      | cons y ys =>
          simp only [List.flatMap_cons, List.append_assoc] at h hlen
          obtain ⟨rfl, hrest, hlen⟩ := hf.split hlen h
          obtain ⟨rfl, hr⟩ := ih (Nat.succ.inj hxy) hlen hrest
          exact ⟨rfl, hr⟩

end SelfDelimiting
