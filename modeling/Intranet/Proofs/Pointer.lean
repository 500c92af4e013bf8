import Intranet.Lib.Register
import Intranet.Lib.Run
import Intranet.Ref.Pointer
import Intranet.Ref.Sample
import Mathlib.Data.Prod.Lex

/-!
# What a node holds for a pointer

`resolve` compares records by a key: the version, higher first, and then the
record hash. Per pointer a node is therefore a register over that key,
offered the publishable records, and what the library says of registers is
what replicas converge to.

The key does not look at the owner. A record by anybody who may publish its
content type wins over the held one when its version is higher, and with it
the pointer's owner, its type and its commitment change.
-/

namespace Intranet

open PointerNode

variable {C : Crypto} {node : PointerNode} {p q : MutablePointer}
  {id : PointerId}

/-! ## The order of `resolve` -/

namespace MutablePointer

/-- The key `resolve` compares: smaller wins. -/
def rank (C : Crypto) (p : MutablePointer) : ℕᵒᵈ ×ₗ Hash :=
  toLex (OrderDual.toDual p.version.toNat, p.recordHash C)

theorem rank_le_iff {a b : MutablePointer} :
    a.rank C ≤ b.rank C ↔ b.version < a.version ∨
      b.version = a.version ∧ a.recordHash C ≤ b.recordHash C := by
  rw [rank, rank, Prod.Lex.toLex_le_toLex, OrderDual.toDual_lt_toDual,
    OrderDual.toDual_inj, UInt64.lt_iff_toNat_lt, UInt64.toNat_inj,
    eq_comm (a := a.version)]

theorem rank_eq_iff {a b : MutablePointer} :
    a.rank C = b.rank C ↔
      a.version = b.version ∧ a.recordHash C = b.recordHash C := by
  rw [rank, rank, toLex_inj, Prod.mk.injEq, OrderDual.toDual_inj,
    UInt64.toNat_inj]

theorem version_le_of_rank_le {a b : MutablePointer}
    (h : a.rank C ≤ b.rank C) : b.version ≤ a.version := by
  rcases rank_le_iff.1 h with h | h
  · exact UInt64.le_of_lt h
  · exact UInt64.le_of_eq h.1

theorem resolve_eq_pick (a b : MutablePointer) :
    resolve C a b = Register.pick (rank C) a b := by
  have hrank := rank_le_iff (C := C) (a := a) (b := b)
  rw [resolve, Register.pick]
  by_cases hgt : b.version < a.version
  · rw [if_pos hgt, if_pos (hrank.2 (Or.inl hgt))]
  · rw [if_neg hgt]
    by_cases hlt : a.version < b.version
    · have hne : b.version ≠ a.version := (UInt64.ne_of_lt hlt).symm
      rw [if_pos hlt, if_neg fun h => (hrank.1 h).elim hgt fun h => hne h.1]
    · have heq : b.version = a.version :=
        UInt64.le_antisymm (UInt64.not_lt.1 hlt) (UInt64.not_lt.1 hgt)
      rw [if_neg hlt]
      refine if_congr ?_ rfl rfl
      rw [hrank]
      exact ⟨fun h => Or.inr ⟨heq, h⟩, fun h => (h.resolve_left hgt).2⟩

/-- `a` is at least as new as `b` exactly when its key is not greater. -/
theorem resolve_eq_left_iff {a b : MutablePointer} :
    resolve C a b = a ↔ a.rank C ≤ b.rank C := by
  rw [resolve_eq_pick, Register.pick]
  split
  · next h => exact iff_of_true rfl h
  · next h =>
      refine iff_of_false (fun heq => h ?_) h
      rw [heq]

theorem supersedes_iff {a b : MutablePointer} :
    a.supersedes C b = true ↔ a.rank C ≤ b.rank C ∧ a ≠ b := by
  rw [supersedes, decide_eq_true_iff, resolve_eq_left_iff]

end MutablePointer

open MutablePointer

/-! ## One call -/

theorem verify_of_publishable (h : node.pointerIsPublishable C p = true) :
    C.verify p.ownerIdentity.key p.payload p.signature = true := by
  rw [pointerIsPublishable, MutablePointer.verify] at h
  split at h
  · cases h
  · next hverify =>
      split at hverify
      · next hsig => exact hsig
      · cases hverify

/-- A call keeps the record in place of the held one, or changes nothing. -/
theorem acceptPointer_cases (C : Crypto) (node : PointerNode)
    (p : MutablePointer) :
    node.pointerIsPublishable C p = true ∧
        (∀ current, node.pointers[p.pointerId]? = some current →
          p.supersedes C current = true) ∧
        (node.acceptPointer C p).2 =
          { node with pointers := node.pointers.insert p.pointerId p } ∨
      (node.pointerIsPublishable C p = true →
          ∃ current, node.pointers[p.pointerId]? = some current ∧
            ¬ p.supersedes C current = true) ∧
        (node.acceptPointer C p).2 = node := by
  rw [acceptPointer]
  by_cases hpub : node.pointerIsPublishable C p = true
  · rw [if_neg (by rw [hpub]; decide)]
    cases hheld : node.pointers[p.pointerId]? with
    | none =>
        refine Or.inl ⟨hpub, fun current h => ?_, rfl⟩
        cases h
    | some current =>
        by_cases hs : p.supersedes C current = true
        · refine Or.inl ⟨hpub, fun other h => ?_, ?_⟩
          · cases h
            exact hs
          · dsimp only
            rw [if_neg (by rw [hs]; decide)]
        · refine Or.inr ⟨fun _ => ⟨current, rfl, hs⟩, ?_⟩
          dsimp only
          rw [if_pos (by rw [Bool.eq_false_of_not_eq_true hs]; rfl)]
  · refine Or.inr ⟨fun h => absurd h hpub, ?_⟩
    rw [Bool.eq_false_of_not_eq_true hpub]
    rfl

theorem log_acceptPointer : (node.acceptPointer C p).2.log = node.log := by
  rcases acceptPointer_cases C node p with h | h
  · rw [h.2.2]
  · rw [h.2]

theorem wrappings_acceptPointer :
    (node.acceptPointer C p).2.wrappings = node.wrappings := by
  rcases acceptPointer_cases C node p with h | h
  · rw [h.2.2]
  · rw [h.2]

/-- A call offers a publishable record to the register of its pointer, and
leaves every other register alone. -/
theorem pointers_acceptPointer (C : Crypto) (node : PointerNode)
    (p : MutablePointer) (id : PointerId) :
    (node.acceptPointer C p).2.pointers[id]? =
      if node.pointerIsPublishable C p = true ∧ p.pointerId = id then
        Register.offer (rank C) node.pointers[id]? p
      else node.pointers[id]? := by
  have hinsert := BTreeMap.getElem?_insert_ite node.pointers p.pointerId id p
  rcases acceptPointer_cases C node p with h | h
  · obtain ⟨hpub, hwins, hnode⟩ := h
    rw [hnode]
    by_cases hid : p.pointerId = id
    · subst hid
      rw [if_pos ⟨hpub, rfl⟩]
      rw [if_pos rfl] at hinsert
      refine hinsert.trans ?_
      cases hheld : node.pointers[p.pointerId]? with
      | none => rfl
      | some current =>
          rw [Register.offer, if_pos (supersedes_iff.1 (hwins current hheld))]
    · rw [if_neg fun h => hid h.2]
      rw [if_neg hid] at hinsert
      exact hinsert
  · obtain ⟨hloses, hnode⟩ := h
    rw [hnode]
    split
    · next hoffer =>
        obtain ⟨hpub, rfl⟩ := hoffer
        obtain ⟨current, hheld, hs⟩ := hloses hpub
        rw [hheld, Register.offer, if_neg fun h => hs (supersedes_iff.2 h)]
    · rfl

theorem governanceState_congr {node' : PointerNode}
    (h : node'.log = node.log) :
    node'.governanceState C = node.governanceState C := by
  rw [governanceState, governanceState, h]

theorem pointerIsPublishable_congr {node' : PointerNode}
    (h : node'.governanceState C = node.governanceState C) :
    node'.pointerIsPublishable C p = node.pointerIsPublishable C p := by
  rw [pointerIsPublishable, pointerIsPublishable, h]

/-! ## A run of calls -/

theorem afterCalls_append {before after : List (GovernanceLog × MutablePointer)} :
    node.afterCalls C (before ++ after) =
      (node.afterCalls C before).afterCalls C after :=
  List.foldl_append

theorem afterCalls_cons {call : GovernanceLog × MutablePointer}
    {calls : List (GovernanceLog × MutablePointer)} :
    node.afterCalls C (call :: calls) =
      ({ node with log := call.1 }.acceptPointer C call.2).2.afterCalls C calls :=
  rfl

/-- What `R` holds of along each change of a held record, it holds of along
a run. -/
theorem afterCalls_held {R : MutablePointer → MutablePointer → Prop}
    (hrefl : ∀ p, R p p) (htrans : ∀ {p q r}, R p q → R q r → R p r)
    {calls : List (GovernanceLog × MutablePointer)}
    (hstep : ∀ before call after, calls = before ++ call :: after →
      ∀ held, (node.afterCalls C before).pointers[call.2.pointerId]? = some held →
        { node.afterCalls C before with log := call.1 }.pointerIsPublishable C
            call.2 = true →
          call.2.supersedes C held = true → R held call.2)
    (hp : node.pointers[id]? = some p) :
    ∃ q, (node.afterCalls C calls).pointers[id]? = some q ∧ R p q := by
  induction calls generalizing node p with
  | nil => exact ⟨p, hp, hrefl p⟩
  | cons call calls ih =>
      obtain ⟨mid, hmid, hpm⟩ :
          ∃ mid, (node.afterCalls C [call]).pointers[id]? = some mid ∧
            R p mid := by
        have hone := pointers_acceptPointer C { node with log := call.1 }
          call.2 id
        change (node.afterCalls C [call]).pointers[id]? = _ at hone
        rw [hone]
        split
        · next hoffer =>
            obtain ⟨hpub, rfl⟩ := hoffer
            simp only [hp, Register.offer]
            split
            · next hwins =>
                refine ⟨call.2, rfl, ?_⟩
                exact hstep [] call calls rfl p hp hpub (supersedes_iff.2 hwins)
            · exact ⟨p, rfl, hrefl p⟩
        · exact ⟨p, hp, hrefl p⟩
      obtain ⟨q, hq, hmq⟩ := ih (fun before other after heq =>
        hstep (call :: before) other after (congrArg (call :: ·) heq)) hmid
      exact ⟨q, hq, htrans hpm hmq⟩

/-! ## Who a pointer belongs to -/

/-- Two records with one owner, one content type and one commitment. -/
def MutablePointer.SameIdentity (a b : MutablePointer) : Prop :=
  a.ownerIdentity = b.ownerIdentity ∧ a.contentType = b.contentType ∧
    a.dekCommitment = b.dekCommitment

/-- The call, if its record takes the place of a held one, leaves the owner,
the content type and the commitment alone. -/
def PointerNode.KeepsIdentity (C : Crypto) (node : PointerNode)
    (call : GovernanceLog × MutablePointer) : Prop :=
  { node with log := call.1 }.pointerIsPublishable C call.2 = true →
    ∀ held, node.pointers[call.2.pointerId]? = some held →
      call.2.supersedes C held = true → held.SameIdentity call.2

/-- `update` builds such records. -/
theorem sameIdentity_of_update {validKey : Bytes 32 → Bool}
    {owner : PerNetworkIdentity C validKey} {cid : Cid}
    {state : GovernanceState} (h : p.update owner cid state = .ok q) :
    q.pointerId = p.pointerId ∧ p.SameIdentity q ∧
      C.verify p.ownerIdentity.key q.payload q.signature = true := by
  rw [update] at h
  split at h
  · cases h
  · next howner =>
      obtain ⟨-, -, h⟩ := Run.bind_ok.1 h
      cases h
      rw [ne_eq, not_not] at howner
      refine ⟨rfl, ⟨howner.symm, rfl, rfl⟩, ?_⟩
      rw [← howner]
      exact owner.verifies _

/-- `later` has the identity of `first`, and if it is another record then the
owner of `first` signed it. -/
def MutablePointer.OwnedSuccessor (C : Crypto) (first later : MutablePointer) :
    Prop :=
  first.SameIdentity later ∧
    (later = first ∨
      C.verify first.ownerIdentity.key later.payload later.signature = true)

theorem MutablePointer.OwnedSuccessor.refl : OwnedSuccessor C p p :=
  ⟨⟨rfl, rfl, rfl⟩, Or.inl rfl⟩

theorem MutablePointer.OwnedSuccessor.trans {r : MutablePointer}
    (hpq : OwnedSuccessor C p q) (hqr : OwnedSuccessor C q r) :
    OwnedSuccessor C p r := by
  obtain ⟨⟨howner, htype, hdek⟩, hsigned⟩ := hpq
  obtain ⟨⟨howner', htype', hdek'⟩, hsigned'⟩ := hqr
  refine ⟨⟨howner.trans howner', htype.trans htype', hdek.trans hdek'⟩, ?_⟩
  rcases hsigned' with rfl | hsigned'
  · exact hsigned
  · rw [howner]
    exact Or.inr hsigned'

/-- In a run of calls every pointer keeps its owner, its content type and its
commitment, and only its owner's signature changes its record, exactly when
every call that replaces a record keeps them. -/
theorem pointer_identity_kept (C : Crypto) (node : PointerNode)
    (calls : List (GovernanceLog × MutablePointer)) :
    (∀ before middle after, calls = before ++ middle ++ after →
      ∀ (id : PointerId) (first : MutablePointer),
        (node.afterCalls C before).pointers[id]? = some first →
        ∃ later, (node.afterCalls C (before ++ middle)).pointers[id]? =
            some later ∧
          first.SameIdentity later ∧
          (later = first ∨ C.verify first.ownerIdentity.key later.payload
            later.signature = true)) ↔
      ∀ before call after, calls = before ++ call :: after →
        (node.afterCalls C before).KeepsIdentity C call := by
  constructor
  · intro hkept before call after hcalls hpub held hheld hs
    obtain ⟨later, hlater, hsame, -⟩ := hkept before [call] after
      (by rw [hcalls, List.append_assoc, List.singleton_append]) _ held hheld
    rw [afterCalls_append] at hlater
    have hone := pointers_acceptPointer C
      { node.afterCalls C before with log := call.1 } call.2 call.2.pointerId
    rw [if_pos ⟨hpub, rfl⟩] at hone
    simp only [hheld, Register.offer] at hone
    rw [if_pos (supersedes_iff.1 hs)] at hone
    rw [Option.some.inj (hlater.symm.trans hone)] at hsame
    exact hsame
  · intro hkeeps before middle after hcalls id first hfirst
    rw [afterCalls_append]
    refine afterCalls_held (R := OwnedSuccessor C) (fun _ => .refl)
      OwnedSuccessor.trans ?_ hfirst
    intro early call late hmiddle held hheld hpub hs
    rw [← afterCalls_append] at hheld hpub
    have hsplit : calls = (before ++ early) ++ call :: (late ++ after) := by
      rw [hcalls, hmiddle]
      simp only [List.append_assoc, List.cons_append]
    have hsame := hkeeps _ call _ hsplit hpub held hheld hs
    refine ⟨hsame, Or.inr ?_⟩
    rw [hsame.1]
    exact verify_of_publishable hpub

/-- A log under which identities 1 and 2 may publish text and read. -/
def Sample.textLog : GovernanceLog :=
  GovernanceLog.new.insertAll .sample
    [Sample.genesis 0 NetworkPolicy.conservativeDefault
      [.publish ⟨"text"⟩, .readContent],
      Sample.entry 1 (some 0) 1 1 (Sample.admits 2)]

/-- A record of pointer `n` signed by `owner`, with hash `nonce` and the
owner's number for its commitment. -/
def Sample.pointer (n owner : ℕ) (version : UInt64) (nonce : ℕ) :
    MutablePointer :=
  ⟨⟨Bytes.ofNat 32 n⟩, Sample.identity owner, ⟨"text"⟩, ⟨Sample.hash 5⟩,
    Sample.hash owner, version, Sample.signature owner nonce⟩

/-- Identity 2 takes over the pointer of identity 1 with a record of its own
at the next version. -/
theorem pointer_taken_over :
    ((new Sample.textLog).afterCalls .sample
        [(Sample.textLog, Sample.pointer 9 1 0 3)]).pointers[
          (Sample.pointer 9 1 0 3).pointerId]? = some (Sample.pointer 9 1 0 3) ∧
      ((new Sample.textLog).afterCalls .sample
        [(Sample.textLog, Sample.pointer 9 1 0 3),
          (Sample.textLog, Sample.pointer 9 2 1 4)]).pointers[
          (Sample.pointer 9 1 0 3).pointerId]? = some (Sample.pointer 9 2 1 4) ∧
      ¬ (Sample.pointer 9 1 0 3).SameIdentity (Sample.pointer 9 2 1 4) := by
  refine ⟨by decide +kernel, by decide +kernel, fun h => ?_⟩
  exact absurd h.1 (by decide +kernel)

/-! ## What replicas converge to -/

/-- No two records in `s` share their hash. -/
def DistinctHashes (C : Crypto) (s : Set MutablePointer) : Prop :=
  ∀ a ∈ s, ∀ b ∈ s, a.recordHash C = b.recordHash C → a = b

/-- The records delivered for `id` that the node stores, and the one it held
for it before. -/
def PointerNode.candidates (C : Crypto) (node : PointerNode)
    (records : List MutablePointer) (id : PointerId) : Set MutablePointer :=
  {p | node.pointers[id]? = some p ∨
    p ∈ records ∧ node.pointerIsPublishable C p = true ∧ p.pointerId = id}

theorem afterRecords_cons {records : List MutablePointer} :
    node.afterRecords C (p :: records) =
      (node.acceptPointer C p).2.afterRecords C records := by
  rw [afterRecords, List.map_cons, afterCalls_cons, afterRecords,
    log_acceptPointer]

/-- What a delivery leaves for a pointer is what a register is left with that
was offered the publishable records for it. -/
theorem pointers_afterRecords {records : List MutablePointer} :
    (node.afterRecords C records).pointers[id]? =
      (records.filter fun p =>
          decide (node.pointerIsPublishable C p = true ∧ p.pointerId = id)).foldl
        (Register.offer (rank C)) node.pointers[id]? := by
  induction records generalizing node with
  | nil => rfl
  | cons p records ih =>
      rw [afterRecords_cons, ih, pointers_acceptPointer]
      have hfilter : (fun q => decide
          ((node.acceptPointer C p).2.pointerIsPublishable C q = true ∧
            q.pointerId = id)) = fun q => decide
          (node.pointerIsPublishable C q = true ∧ q.pointerId = id) := by
        funext q
        rw [pointerIsPublishable_congr (governanceState_congr log_acceptPointer)]
      rw [hfilter, List.filter_cons]
      split
      · next hoffer =>
          rw [if_pos (decide_eq_true hoffer), List.foldl_cons]
      · next hoffer => rw [if_neg fun h => hoffer (of_decide_eq_true h)]

theorem keeps_afterRecords (C : Crypto) (node : PointerNode)
    (records : List MutablePointer) (id : PointerId) :
    Register.Keeps (rank C) (node.candidates C records id)
      (node.afterRecords C records).pointers[id]? := by
  have hstart : Register.Keeps (rank C) {p | node.pointers[id]? = some p}
      node.pointers[id]? := by
    cases node.pointers[id]? with
    | none => exact Set.eq_empty_of_forall_notMem fun p hp => by cases hp
    | some held =>
        refine ⟨rfl, fun p hp => ?_⟩
        cases hp
        exact le_rfl
  have hrun := hstart.foldl (records.filter fun p =>
    decide (node.pointerIsPublishable C p = true ∧ p.pointerId = id))
  rw [pointers_afterRecords]
  convert hrun using 1
  ext p
  simp only [candidates, Set.mem_union, Set.mem_ofPred_eq, List.mem_filter,
    decide_eq_true_iff]

theorem DistinctHashes.distinct {s t : Set MutablePointer}
    (hs : DistinctHashes C s) (hts : t ⊆ s) : Register.Distinct (rank C) t :=
  fun a ha b hb h => hs a (hts ha) b (hts hb) (rank_eq_iff.1 h).2

theorem candidates_subset {records : List MutablePointer} :
    node.candidates C records id ⊆
      {p | (∃ id : PointerId, node.pointers[id]? = some p) ∨ p ∈ records} := by
  intro p hp
  rcases hp with hheld | hp
  · exact Or.inl ⟨id, hheld⟩
  · exact Or.inr hp.1

theorem candidates_congr {records records' : List MutablePointer}
    (hsame : ∀ p, p ∈ records ↔ p ∈ records') :
    node.candidates C records id = node.candidates C records' id := by
  ext p
  simp only [candidates, Set.mem_ofPred_eq, hsame]

/-- Replicas under one governance state that were delivered the same records,
in any order and any number of times, hold the same record for each pointer:
of those they store, the one of highest version and then of lowest hash. The
rule that decides is commutative, associative and idempotent, and no call
under any governance state lowers the version held. -/
theorem pointer_replicas_converge (C : Crypto) (node : PointerNode)
    (records records' : List MutablePointer)
    (hsame : ∀ p, p ∈ records ↔ p ∈ records')
    (hfree : DistinctHashes C
      {p | (∃ id : PointerId, node.pointers[id]? = some p) ∨ p ∈ records}) :
    (node.afterRecords C records).pointers =
        (node.afterRecords C records').pointers ∧
      (∀ (id : PointerId) (p : MutablePointer),
        (node.afterRecords C records).pointers[id]? = some p ↔
          p ∈ node.candidates C records id ∧
            ∀ q ∈ node.candidates C records id, q.version < p.version ∨
              q.version = p.version ∧ p.recordHash C ≤ q.recordHash C) ∧
      (∀ a b, (a.recordHash C = b.recordHash C → a = b) →
        resolve C a b = resolve C b a) ∧
      (∀ a b c, resolve C (resolve C a b) c = resolve C a (resolve C b c)) ∧
      (∀ a, resolve C a a = a) ∧
      (∀ calls (id : PointerId) (p : MutablePointer),
        node.pointers[id]? = some p →
          ∃ q, (node.afterCalls C calls).pointers[id]? = some q ∧
            p.version ≤ q.version) := by
  have hdistinct : ∀ id, Register.Distinct (rank C)
      (node.candidates C records id) := fun id =>
    hfree.distinct candidates_subset
  refine ⟨?_, fun id p => ⟨fun h => ?_, fun h => ?_⟩, ?_, ?_, ?_, ?_⟩
  · refine Std.ExtTreeMap.ext_getElem? fun id => ?_
    have hkeeps := keeps_afterRecords C node records' id
    rw [← candidates_congr hsame] at hkeeps
    exact (keeps_afterRecords C node records id).unique (hdistinct id) hkeeps
  · have hkeeps := keeps_afterRecords C node records id
    rw [h] at hkeeps
    exact ⟨hkeeps.1, fun q hq => rank_le_iff.1 (hkeeps.2 q hq)⟩
  · have hbest : Register.Keeps (rank C) (node.candidates C records id)
        (some p) := ⟨h.1, fun q hq => rank_le_iff.2 (h.2 q hq)⟩
    exact (keeps_afterRecords C node records id).unique (hdistinct id) hbest
  · intro a b h
    rw [resolve_eq_pick, resolve_eq_pick]
    exact Register.pick_comm fun hrank => h (rank_eq_iff.1 hrank).2
  · intro a b c
    simp only [resolve_eq_pick]
    exact Register.pick_assoc
  · intro a
    rw [resolve_eq_pick]
    exact Register.pick_self
  · intro calls id p hp
    refine afterCalls_held (R := fun p q => p.version ≤ q.version)
      (fun _ => UInt64.le_refl _) UInt64.le_trans ?_ hp
    intro before call after _ held _ _ hs
    exact version_le_of_rank_le (supersedes_iff.1 hs).1

/-- Two records of one version, delivered in both orders: the one with hash 3
is held. -/
theorem pointer_replicas_converge_fork :
    let fork := [Sample.pointer 9 1 0 4, Sample.pointer 9 2 0 3]
    ((new Sample.textLog).afterRecords .sample fork).pointers =
        ((new Sample.textLog).afterRecords .sample fork.reverse).pointers ∧
      ((new Sample.textLog).afterRecords .sample fork).pointers[
        (Sample.pointer 9 2 0 3).pointerId]? = some (Sample.pointer 9 2 0 3) := by
  refine ⟨(pointer_replicas_converge .sample (new Sample.textLog) _ _
    (fun p => List.mem_reverse.symm) ?_).1, by decide +kernel⟩
  have hhash : ∀ a ∈ [Sample.pointer 9 1 0 4, Sample.pointer 9 2 0 3],
      ∀ b ∈ [Sample.pointer 9 1 0 4, Sample.pointer 9 2 0 3],
        a.recordHash .sample = b.recordHash .sample → a = b := by
    decide +kernel
  intro a ha b hb
  rcases ha with ⟨id, ha⟩ | ha
  · cases ha
  · rcases hb with ⟨id, hb⟩ | hb
    · cases hb
    · exact hhash a ha b hb

end Intranet
