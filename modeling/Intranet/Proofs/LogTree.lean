import Intranet.Ref.Log
import Intranet.Ref.Sample
import Intranet.Lib.Run

/-!
# The log is a tree

`insert` checks structure one entry at a time. This file says what the checks
add up to: the child index is exactly the parent links turned around, every
parent is stored, one entry has no parent and it is the root, and some rank
falls along every link, so that no walk can go round in circles. `Wf` is that
invariant, `Wf.insert` its preservation.

One thing `insert` does not check is whether a hash is already taken. Storing
a second entry under it would leave the child index pointing at the old one,
so preservation assumes that the entries presented to a log do not collide
(`CollisionFree`); about the hash function itself nothing is assumed. A
repeated insert of the same entry is harmless: it leaves the log exactly as
it was (`insert_stored`).

The order of the inserts leaves no trace. Two logs that hold the same entries
agree in every field (`Wf.eq_of_stored`).
-/

namespace Intranet

/-- No two of these entries share a hash. -/
def CollisionFree (C : Crypto) (entries : Set LogEntry) : Prop :=
  entries.InjOn (LogEntry.hash C)

/-- Entries whose hashes are all different. -/
theorem collisionFree_of_nodup {C : Crypto} {es : List LogEntry}
    (h : (es.map (LogEntry.hash C)).Nodup) : CollisionFree C {e | e ∈ es} :=
  fun _ ha _ hb hab => List.inj_on_of_nodup_map h ha hb hab

namespace GovernanceLog

variable {C : Crypto} {log log' : GovernanceLog} {e : LogEntry} {h p : Hash}

/-- `e` is in the log. -/
def Stored (log : GovernanceLog) (e : LogEntry) : Prop :=
  ∃ h : Hash, log.entries[h]? = some e

/-- The representation invariant. -/
structure Wf (C : Crypto) (log : GovernanceLog) : Prop where
  keyed : ∀ (h : Hash) e, log.entries[h]? = some e → e.hash C = h
  signed : ∀ (h : Hash) e, log.entries[h]? = some e →
    e.verifySignature C = .ok ()
  founding : ∀ (h : Hash) e, log.entries[h]? = some e → e.parent = none →
    e.body.isGenesis = true
  root_iff : ∀ h, log.root = some h ↔ h ∈ log.entries ∧ log.parentOf h = none
  parent_mem : ∀ h p, log.parentOf h = some p → p ∈ log.entries
  child_iff : ∀ p h, (∃ set, log.children[p]? = some set ∧ h ∈ set) ↔
    log.parentOf h = some p
  inhabited : ∀ (p : Hash) set, log.children[p]? = some set → ∃ h, h ∈ set
  ranked : ∃ rank : Hash → ℕ,
    (∀ h p, log.parentOf h = some p → rank p < rank h) ∧
      ∀ h, rank h ≤ log.len
  finalized_mem : ∀ f, log.finalized = some f → f ∈ log.entries

theorem wf_new : Wf C new where
  keyed h e he := by simp [new] at he
  signed h e he := by simp [new] at he
  founding h e he := by simp [new] at he
  root_iff h := by simp [new]
  parent_mem h p hp := by simp [new, parentOf] at hp
  child_iff p h := by simp [new, parentOf]
  inhabited p set hset := by simp [new] at hset
  ranked := ⟨fun _ => 0, fun h p hp => by simp [new, parentOf] at hp,
    fun _ => Nat.zero_le _⟩
  finalized_mem f hf := by simp [new] at hf

/-! ## One insert -/

/-- The checks `insert` makes. -/
def Accepts (C : Crypto) (log : GovernanceLog) (e : LogEntry) : Prop :=
  e.verifySignature C = .ok () ∧
    match e.parent with
    | none => e.body.isGenesis = true ∧ ∀ root ∈ log.root, root = e.hash C
    | some p => p ∈ log.entries

/-- What an accepted entry does to the log. -/
def inserted (C : Crypto) (log : GovernanceLog) (e : LogEntry) :
    GovernanceLog :=
  match e.parent with
  | none =>
      { log with
        root := some (e.hash C)
        entries := log.entries.insert (e.hash C) e }
  | some p =>
      { log with
        children := log.children.insert p
          ((log.children[p]?.getD ∅).insert (e.hash C))
        entries := log.entries.insert (e.hash C) e }

theorem root_any_iff : log.root.any (fun root => root ≠ h) = false ↔
    ∀ root ∈ log.root, root = h := by
  cases log.root <;> simp

theorem insert_ok_iff {hash : Hash} :
    log.insert C e = .ok (hash, log') ↔
      log.Accepts C e ∧ hash = e.hash C ∧ log' = log.inserted C e := by
  unfold insert Accepts inserted
  rw [Run.bind_ok]
  cases hparent : e.parent with
  | none =>
      constructor
      · intro hgiven
        obtain ⟨_, hsig, hrest⟩ := hgiven
        dsimp only at hrest
        split at hrest
        · cases hrest
        · next hgen =>
            split at hrest
            · cases hrest
            · next hroot =>
                cases hrest
                exact ⟨⟨hsig, by simpa using hgen,
                  root_any_iff.1 (by simpa using hroot)⟩, rfl, rfl⟩
      · intro hgiven
        obtain ⟨⟨hsig, hgen, hroot⟩, rfl, rfl⟩ := hgiven
        refine ⟨(), hsig, ?_⟩
        simp only [hgen, root_any_iff.2 hroot]
        rfl
  | some p =>
      constructor
      · intro hgiven
        obtain ⟨_, hsig, hrest⟩ := hgiven
        dsimp only at hrest
        split at hrest
        · cases hrest
        · next hmem =>
            cases hrest
            exact ⟨⟨hsig, by simpa using hmem⟩, rfl, rfl⟩
      · intro hgiven
        obtain ⟨⟨hsig, hmem⟩, rfl, rfl⟩ := hgiven
        refine ⟨(), hsig, ?_⟩
        simp only [Std.ExtTreeMap.contains_iff_mem.2 hmem]
        rfl

@[simp]
theorem inserted_entries :
    (log.inserted C e).entries = log.entries.insert (e.hash C) e := by
  unfold inserted
  split <;> rfl

@[simp]
theorem inserted_finalized : (log.inserted C e).finalized = log.finalized := by
  unfold inserted
  split <;> rfl

theorem getElem?_inserted :
    (log.inserted C e).entries[h]? =
      if e.hash C = h then some e else log.entries[h]? := by
  rw [inserted_entries, BTreeMap.getElem?_insert_ite]
  congr 1

theorem mem_inserted : h ∈ (log.inserted C e).entries ↔
    e.hash C = h ∨ h ∈ log.entries := by
  rw [inserted_entries, BTreeMap.mem_insert_iff]

theorem parentOf_inserted :
    (log.inserted C e).parentOf h =
      if e.hash C = h then e.parent else log.parentOf h := by
  unfold parentOf
  rw [getElem?_inserted]
  split <;> rfl

theorem mem_of_parentOf (hp : log.parentOf h = some p) : h ∈ log.entries := by
  obtain ⟨e, he, -⟩ := Option.bind_eq_some_iff.1 hp
  exact (BTreeMap.mem_iff_exists _ _).2 ⟨e, he⟩

theorem parentOf_of_getElem? (he : log.entries[h]? = some e) :
    log.parentOf h = e.parent := by
  rw [parentOf, he]
  rfl

/-- A repeated insert changes nothing. -/
theorem insert_stored (hwf : Wf C log) (he : log.entries[e.hash C]? = some e) :
    log.inserted C e = log := by
  have hentries := BTreeMap.insert_of_getElem? he
  have hlink := parentOf_of_getElem? he
  unfold inserted
  split
  · next hparent =>
      have hroot : log.root = some (e.hash C) :=
        (hwf.root_iff _).2 ⟨(BTreeMap.mem_iff_exists _ _).2 ⟨e, he⟩,
          hlink.trans hparent⟩
      rw [hentries, ← hroot]
  · next p hparent =>
      obtain ⟨set, hset, hmem⟩ := (hwf.child_iff p _).2 (hlink.trans hparent)
      rw [hentries, hset, Option.getD_some, BTreeSet.insert_of_mem hmem,
        BTreeMap.insert_of_getElem? hset]

theorem mem_siblings : h ∈ log.children[p]?.getD ∅ ↔
    ∃ set, log.children[p]? = some set ∧ h ∈ set := by
  cases log.children[p]? <;> simp

theorem len_inserted (hnew : e.hash C ∉ log.entries) :
    (log.inserted C e).len = log.len + 1 := by
  rw [len, inserted_entries, Std.ExtTreeMap.size_insert,
    if_neg (by simpa using hnew)]
  rfl

/-! ### What a new leaf keeps of the invariant -/

/-- What holds of the entry and of everything stored holds of everything
stored afterwards. -/
theorem forall_inserted {P : Hash → LogEntry → Prop} (he : P (e.hash C) e)
    (hlog : ∀ (h : Hash) x, log.entries[h]? = some x → P h x) (h : Hash)
    (x : LogEntry) (hx : (log.inserted C e).entries[h]? = some x) : P h x := by
  rw [getElem?_inserted] at hx
  split at hx
  · next heq =>
      cases hx
      rwa [← heq]
  · exact hlog h x hx

theorem Accepts.parent_mem (hacc : log.Accepts C e) (hp : e.parent = some p) :
    p ∈ log.entries := by
  have hstruct := hacc.2
  rw [hp] at hstruct
  exact hstruct

theorem Accepts.founding (hacc : log.Accepts C e) (hp : e.parent = none) :
    e.body.isGenesis = true ∧ ∀ root ∈ log.root, root = e.hash C := by
  have hstruct := hacc.2
  rw [hp] at hstruct
  exact hstruct

theorem parentOf_of_not_mem (hnew : h ∉ log.entries) :
    log.parentOf h = none := by
  by_contra hsome
  obtain ⟨p, hp⟩ := Option.ne_none_iff_exists'.1 hsome
  exact hnew (mem_of_parentOf hp)

/-- A founding entry finds no root, any other leaves it in place. -/
theorem Wf.root_iff_inserted (hwf : Wf C log) (hacc : log.Accepts C e)
    (hnew : e.hash C ∉ log.entries) (h : Hash) :
    (log.inserted C e).root = some h ↔ h ∈ (log.inserted C e).entries ∧
      (log.inserted C e).parentOf h = none := by
  rw [mem_inserted, parentOf_inserted]
  cases hparent : e.parent with
  | none =>
      have hroot : (log.inserted C e).root = some (e.hash C) := by
        rw [inserted, hparent]
      rw [hroot, Option.some.injEq]
      split
      · next heq => simp [heq]
      · next hne =>
          refine iff_of_false hne ?_
          intro hgiven
          obtain ⟨heq | hmem, hpar⟩ := hgiven
          · exact hne heq
          · exact hne ((hacc.founding hparent).2 h
              ((hwf.root_iff h).2 ⟨hmem, hpar⟩)).symm
  | some p =>
      have hroot : (log.inserted C e).root = log.root := by
        rw [inserted, hparent]
      rw [hroot, hwf.root_iff]
      split
      · next heq =>
          subst heq
          refine iff_of_false (fun hmem => hnew hmem.1) ?_
          intro hgiven
          obtain ⟨-, hpar⟩ := hgiven
          cases hpar
      · next hne => simp [hne]

theorem Wf.parent_mem_inserted (hwf : Wf C log) (hacc : log.Accepts C e)
    (hp : (log.inserted C e).parentOf h = some p) : p ∈ log.entries := by
  rw [parentOf_inserted] at hp
  split at hp
  · exact hacc.parent_mem hp
  · exact hwf.parent_mem h p hp

theorem Wf.child_iff_inserted (hwf : Wf C log) (hnew : e.hash C ∉ log.entries)
    (q h : Hash) :
    (∃ set, (log.inserted C e).children[q]? = some set ∧ h ∈ set) ↔
      (log.inserted C e).parentOf h = some q := by
  have hnone := parentOf_of_not_mem hnew
  rw [parentOf_inserted]
  cases hparent : e.parent with
  | none =>
      have hchildren : (log.inserted C e).children = log.children := by
        rw [inserted, hparent]
      rw [hchildren, hwf.child_iff]
      split
      · next heq => rw [← heq, hnone]
      · rfl
  | some p =>
      have hchildren : (log.inserted C e).children = log.children.insert p
          ((log.children[p]?.getD ∅).insert (e.hash C)) := by
        rw [inserted, hparent]
      rw [hchildren, BTreeMap.getElem?_insert_ite]
      split
      · next hpq =>
          subst hpq
          simp only [Option.some.injEq, exists_eq_left',
            BTreeSet.mem_insert_iff, mem_siblings, hwf.child_iff]
          split <;> simp_all
      · next hpq =>
          rw [hwf.child_iff]
          split
          · next heq => simp [← heq, hnone, hpq]
          · rfl

theorem Wf.inhabited_inserted (hwf : Wf C log) {q : Hash} {set : BTreeSet Hash}
    (hset : (log.inserted C e).children[q]? = some set) : ∃ h, h ∈ set := by
  cases hparent : e.parent with
  | none =>
      rw [inserted, hparent] at hset
      exact hwf.inhabited q set hset
  | some p =>
      rw [inserted, hparent] at hset
      dsimp only at hset
      rw [BTreeMap.getElem?_insert_ite] at hset
      split at hset
      · cases hset
        exact ⟨e.hash C, (BTreeSet.mem_insert_iff _ _ _).2 (.inl rfl)⟩
      · exact hwf.inhabited q set hset

/-- The new leaf ranks above everything stored. -/
theorem Wf.ranked_inserted (hwf : Wf C log) (hacc : log.Accepts C e)
    (hnew : e.hash C ∉ log.entries) :
    ∃ rank : Hash → ℕ,
      (∀ h p, (log.inserted C e).parentOf h = some p → rank p < rank h) ∧
        ∀ h, rank h ≤ (log.inserted C e).len := by
  obtain ⟨rank, hfall, hbound⟩ := hwf.ranked
  refine ⟨fun h => if e.hash C = h then log.len + 1 else rank h, ?_, ?_⟩
  · intro h p hp
    have hpmem := hwf.parent_mem_inserted hacc hp
    have hself : e.hash C ≠ p := fun heq => hnew (heq ▸ hpmem)
    rw [parentOf_inserted] at hp
    simp only [if_neg hself]
    split at hp
    · next heq =>
        rw [if_pos heq]
        exact Nat.lt_succ_of_le (hbound p)
    · next hne =>
        rw [if_neg hne]
        exact hfall h p hp
  · intro h
    rw [len_inserted hnew]
    dsimp only
    split
    · exact le_rfl
    · exact (hbound h).trans (Nat.le_succ _)

/-- A new hash enters the tree as a leaf. -/
theorem Wf.inserted_new (hwf : Wf C log) (hacc : log.Accepts C e)
    (hnew : e.hash C ∉ log.entries) : Wf C (log.inserted C e) where
  keyed := forall_inserted rfl hwf.keyed
  signed := forall_inserted hacc.1 hwf.signed
  founding := forall_inserted (fun hp => (hacc.founding hp).1) hwf.founding
  root_iff := hwf.root_iff_inserted hacc hnew
  parent_mem _ _ hp := mem_inserted.2 (.inr (hwf.parent_mem_inserted hacc hp))
  child_iff := hwf.child_iff_inserted hnew
  inhabited _ _ := hwf.inhabited_inserted
  ranked := hwf.ranked_inserted hacc hnew
  finalized_mem f hf := by
    rw [inserted_finalized] at hf
    exact mem_inserted.2 (.inr (hwf.finalized_mem f hf))

/-- `insert` keeps the invariant, as long as the entry collides with nothing
stored. -/
theorem Wf.insert {hash : Hash} (hwf : Wf C log)
    (hins : log.insert C e = .ok (hash, log'))
    (hfree : ∀ x, log.Stored x → x.hash C = e.hash C → x = e) :
    Wf C log' := by
  obtain ⟨hacc, -, rfl⟩ := insert_ok_iff.1 hins
  by_cases hmem : e.hash C ∈ log.entries
  · obtain ⟨x, hx⟩ := (BTreeMap.mem_iff_exists _ _).1 hmem
    have hxe : x = e := hfree x ⟨_, hx⟩ (hwf.keyed _ _ hx)
    rw [hxe] at hx
    rw [insert_stored hwf hx]
    exact hwf
  · exact hwf.inserted_new hacc hmem

/-! ## Runs of inserts -/

/-- A well-formed log that holds nothing but entries of `S`. -/
structure Within (C : Crypto) (S : Set LogEntry) (log : GovernanceLog) :
    Prop where
  wf : Wf C log
  mem : ∀ e, log.Stored e → e ∈ S

variable {S : Set LogEntry}

theorem within_new : Within C S new :=
  ⟨wf_new, fun e he => by
    obtain ⟨h, hh⟩ := he
    simp [new] at hh⟩

theorem stored_inserted {x : LogEntry} (hx : (log.inserted C e).Stored x) :
    x = e ∨ log.Stored x := by
  obtain ⟨h, hh⟩ := hx
  rw [getElem?_inserted] at hh
  split at hh
  · cases hh
    exact Or.inl rfl
  · exact Or.inr ⟨h, hh⟩

theorem Within.insert {hash : Hash} (hlog : Within C S log)
    (hfree : CollisionFree C S) (he : e ∈ S)
    (hins : log.insert C e = .ok (hash, log')) : Within C S log' := by
  refine ⟨hlog.wf.insert hins fun x hx heq => hfree (hlog.mem x hx) he heq, ?_⟩
  obtain ⟨-, -, rfl⟩ := insert_ok_iff.1 hins
  intro x hx
  rcases stored_inserted hx with rfl | hold
  · exact he
  · exact hlog.mem x hold

theorem Within.tryInsert (hlog : Within C S log) (hfree : CollisionFree C S)
    (he : e ∈ S) : Within C S (log.tryInsert C e) := by
  unfold GovernanceLog.tryInsert
  split
  · next hins => exact hlog.insert hfree he hins
  · exact hlog

theorem Within.insertAll {es : List LogEntry} (hlog : Within C S log)
    (hfree : CollisionFree C S) (hes : ∀ e ∈ es, e ∈ S) :
    Within C S (log.insertAll C es) := by
  induction es generalizing log with
  | nil => exact hlog
  | cons e es ih =>
      exact ih (hlog.tryInsert hfree (hes e List.mem_cons_self))
        fun x hx => hes x (List.mem_cons_of_mem e hx)

theorem tryInsert_finalized : (log.tryInsert C e).finalized = log.finalized := by
  unfold tryInsert
  split
  · next hins =>
      obtain ⟨-, -, rfl⟩ := insert_ok_iff.1 hins
      exact inserted_finalized
  · rfl

theorem insertAll_finalized {es : List LogEntry} :
    (log.insertAll C es).finalized = log.finalized := by
  induction es generalizing log with
  | nil => rfl
  | cons e es ih => exact ih.trans tryInsert_finalized

/-! ## The walk to the root -/

theorem Wf.ancestry_some (hwf : Wf C log) (hp : log.parentOf h = some p) :
    log.ancestry h = log.ancestry p ++ [h] := by
  obtain ⟨rank, hfall, hbound⟩ := hwf.ranked
  rw [ancestry, Walk.collect_some hfall (Nat.lt_succ_of_le (hbound h)), hp]
  rfl

theorem ancestry_none (hp : log.parentOf h = none) : log.ancestry h = [h] := by
  rw [ancestry, Walk.collect, hp]
  cases log.len <;> rfl

/-- `ancestry` collects exactly what lies above. -/
theorem Wf.mem_ancestry (hwf : Wf C log) {a : Hash} :
    a ∈ log.ancestry h ↔ Walk.Above log.parentOf a h := by
  obtain ⟨rank, hfall, hbound⟩ := hwf.ranked
  exact Walk.mem_collect hfall (Nat.lt_succ_of_le (hbound h))

/-- Induction along the parent links, from the root down. -/
theorem Wf.induction (hwf : Wf C log) {P : Hash → Prop}
    (hstep : ∀ h, (∀ p, log.parentOf h = some p → P p) → P h) (h : Hash) :
    P h := by
  obtain ⟨rank, hfall, -⟩ := hwf.ranked
  induction hr : rank h using Nat.strong_induction_on generalizing h with
  | _ n ih =>
      refine hstep h fun p hp => ih (rank p) ?_ p rfl
      have := hfall h p hp
      omega

theorem Wf.ancestry_head (hwf : Wf C log) :
    h ∈ log.entries → (log.ancestry h).head? = log.root ∧ log.root.isSome := by
  induction h using hwf.induction with
  | hstep h ih =>
      intro hmem
      cases hp : log.parentOf h with
      | none =>
          rw [ancestry_none hp, (hwf.root_iff h).2 ⟨hmem, hp⟩]
          exact ⟨rfl, rfl⟩
      | some p =>
          obtain ⟨hhead, hroot⟩ := ih p hp (hwf.parent_mem h p hp)
          rw [hwf.ancestry_some hp, List.head?_append, hhead]
          obtain ⟨root, hr⟩ := Option.isSome_iff_exists.1 hroot
          rw [hr]
          exact ⟨rfl, rfl⟩

/-! ## Growth

A log only ever gains entries. What was stored keeps its parent, and with it
its whole ancestry. -/

/-- `log'` holds everything `log` does. -/
def Extends (log log' : GovernanceLog) : Prop :=
  ∀ (h : Hash) e, log.entries[h]? = some e → log'.entries[h]? = some e

theorem Extends.refl (log : GovernanceLog) : Extends log log :=
  fun _ _ he => he

theorem Extends.trans {a b c : GovernanceLog} (hab : Extends a b)
    (hbc : Extends b c) : Extends a c :=
  fun h e he => hbc h e (hab h e he)

theorem Extends.mem (hext : Extends log log') (hmem : h ∈ log.entries) :
    h ∈ log'.entries := by
  obtain ⟨e, he⟩ := (BTreeMap.mem_iff_exists _ _).1 hmem
  exact (BTreeMap.mem_iff_exists _ _).2 ⟨e, hext h e he⟩

theorem Extends.getElem?_eq (hext : Extends log log') (hmem : h ∈ log.entries) :
    log'.entries[h]? = log.entries[h]? := by
  obtain ⟨e, he⟩ := (BTreeMap.mem_iff_exists _ _).1 hmem
  rw [he, hext h e he]

theorem Extends.parentOf_eq (hext : Extends log log')
    (hmem : h ∈ log.entries) : log'.parentOf h = log.parentOf h := by
  rw [parentOf, hext.getElem?_eq hmem, parentOf]

theorem Extends.gatedAt_eq (hext : Extends log log') (hmem : h ∈ log.entries) :
    log'.gatedAt h = log.gatedAt h := by
  rw [gatedAt, hext.getElem?_eq hmem, gatedAt]

theorem Extends.ancestry_eq (hext : Extends log log') (hwf : Wf C log)
    (hwf' : Wf C log') :
    h ∈ log.entries → log'.ancestry h = log.ancestry h := by
  induction h using hwf.induction with
  | hstep h ih =>
      intro hmem
      have hsame := hext.parentOf_eq hmem
      cases hp : log.parentOf h with
      | none => rw [ancestry_none hp, ancestry_none (hsame.trans hp)]
      | some p =>
          rw [hwf.ancestry_some hp, hwf'.ancestry_some (hsame.trans hp),
            ih p hp (hwf.parent_mem h p hp)]

/-- Above a stored entry, everything is stored. -/
theorem Wf.mem_of_above (hwf : Wf C log) {a : Hash}
    (habove : Walk.Above log.parentOf a h) (hmem : h ∈ log.entries) :
    a ∈ log.entries := by
  induction habove with
  | refl => exact hmem
  | tail _ hlink _ => exact hwf.parent_mem _ _ hlink

theorem Extends.above_iff (hext : Extends log log') (hwf : Wf C log)
    (hwf' : Wf C log') {a : Hash} (hmem : h ∈ log.entries) :
    Walk.Above log'.parentOf a h ↔ Walk.Above log.parentOf a h := by
  rw [← hwf.mem_ancestry, ← hwf'.mem_ancestry, hext.ancestry_eq hwf hwf' hmem]

theorem Extends.len_le (hext : Extends log log') : log.len ≤ log'.len := by
  rw [len, len, ← Std.ExtTreeMap.length_keys, ← Std.ExtTreeMap.length_keys]
  refine (log.entries.nodup_keys.subperm fun h hmem => ?_).length_le
  rw [Std.ExtTreeMap.mem_keys] at hmem ⊢
  exact hext.mem hmem

theorem Within.extends_tryInsert (hlog : Within C S log)
    (hfree : CollisionFree C S) (he : e ∈ S) :
    Extends log (log.tryInsert C e) := by
  unfold GovernanceLog.tryInsert
  split
  · next hins =>
      obtain ⟨-, -, rfl⟩ := insert_ok_iff.1 hins
      intro h x hx
      rw [getElem?_inserted]
      split
      · next heq =>
          have := hfree (hlog.mem x ⟨h, hx⟩) he
            ((hlog.wf.keyed h x hx).trans heq.symm)
          rw [this]
      · exact hx
  · exact Extends.refl log

theorem Within.extends_insertAll {es : List LogEntry} (hlog : Within C S log)
    (hfree : CollisionFree C S) (hes : ∀ e ∈ es, e ∈ S) :
    Extends log (log.insertAll C es) := by
  induction es generalizing log with
  | nil => exact Extends.refl log
  | cons e es ih =>
      have he := hes e List.mem_cons_self
      exact (hlog.extends_tryInsert hfree he).trans
        (ih (hlog.tryInsert hfree he)
          fun x hx => hes x (List.mem_cons_of_mem e hx))

/-- What a run of inserts adds is among what was presented. -/
theorem stored_insertAll {es : List LogEntry} {x : LogEntry}
    (hx : (log.insertAll C es).Stored x) : x ∈ es ∨ log.Stored x := by
  induction es generalizing log with
  | nil => exact Or.inr hx
  | cons e es ih =>
      rcases ih hx with hmem | hstored
      · exact Or.inl (List.mem_cons_of_mem e hmem)
      · unfold tryInsert at hstored
        split at hstored
        · next hins =>
            obtain ⟨-, -, rfl⟩ := insert_ok_iff.1 hins
            rcases stored_inserted hstored with rfl | hold
            · exact Or.inl List.mem_cons_self
            · exact Or.inr hold
        · exact Or.inr hstored

/-! ## The order of inserts leaves no trace -/

theorem Wf.getElem?_iff (hwf : Wf C log) :
    log.entries[h]? = some e ↔ log.Stored e ∧ e.hash C = h := by
  constructor
  · intro he
    exact ⟨⟨h, he⟩, hwf.keyed h e he⟩
  · intro hgiven
    obtain ⟨⟨h', he⟩, rfl⟩ := hgiven
    rw [hwf.keyed h' e he]
    exact he

theorem Wf.children_eq {log₁ log₂ : GovernanceLog} (h₁ : Wf C log₁)
    (h₂ : Wf C log₂) (hparent : log₁.parentOf = log₂.parentOf) :
    log₁.children = log₂.children := by
  have hmem : ∀ p h : Hash, (∃ set, log₁.children[p]? = some set ∧ h ∈ set) ↔
      ∃ set, log₂.children[p]? = some set ∧ h ∈ set := by
    intro p h
    rw [h₁.child_iff, h₂.child_iff, hparent]
  refine Std.ExtTreeMap.ext_getElem? fun p => ?_
  cases hc₁ : log₁.children[p]? with
  | none =>
      cases hc₂ : log₂.children[p]? with
      | none => rfl
      | some set =>
          -- an index entry is never empty, so the other log has one too
          obtain ⟨h, hin⟩ := h₂.inhabited p set hc₂
          obtain ⟨set', hset', -⟩ := (hmem p h).2 ⟨set, hc₂, hin⟩
          rw [hc₁] at hset'
          cases hset'
  | some set =>
      obtain ⟨h, hin⟩ := h₁.inhabited p set hc₁
      obtain ⟨set', hset', -⟩ := (hmem p h).1 ⟨set, hc₁, hin⟩
      rw [hset', Option.some.injEq]
      refine Std.ExtTreeSet.ext_mem fun a => ?_
      have ha := hmem p a
      simpa [hc₁, hset'] using ha

/-- A well-formed log is determined by what it holds and what is final. -/
theorem Wf.eq_of_stored {log₁ log₂ : GovernanceLog} (h₁ : Wf C log₁)
    (h₂ : Wf C log₂) (hsame : ∀ e, log₁.Stored e ↔ log₂.Stored e)
    (hfinal : log₁.finalized = log₂.finalized) : log₁ = log₂ := by
  have hentries : log₁.entries = log₂.entries := by
    refine Std.ExtTreeMap.ext_getElem? fun h => ?_
    refine Option.ext fun e => ?_
    rw [h₁.getElem?_iff, h₂.getElem?_iff, hsame]
  have hparent : log₁.parentOf = log₂.parentOf := by
    funext h
    rw [parentOf, parentOf, hentries]
  have hroot : log₁.root = log₂.root := by
    refine Option.ext fun h => ?_
    rw [h₁.root_iff, h₂.root_iff, hentries, hparent]
  exact GovernanceLog.ext hentries (h₁.children_eq h₂ hparent) hroot hfinal

/-- The log is a function of the entry set. However the inserts came in,
refused and repeated ones included, the child index is exactly the parent
links turned around, every entry but the root has its parent stored, and the
ancestry of every stored entry starts at the root; and two logs that hold the
same entries have the same root, child index, heads, canonical chain and sync
responses. -/
theorem insertAll_determined (es₁ es₂ : List LogEntry)
    (hfree : CollisionFree C {e | e ∈ es₁ ++ es₂})
    (hsame : ∀ e, (new.insertAll C es₁).Stored e ↔
      (new.insertAll C es₂).Stored e) :
    (∀ log ∈ [new.insertAll C es₁, new.insertAll C es₂],
      (∀ p h, h ∈ log.children[p]?.getD ∅ ↔
        ∃ e : LogEntry, log.entries[h]? = some e ∧ e.parent = some p) ∧
      (∀ (h : Hash) e, log.entries[h]? = some e → log.root ≠ some h →
        ∃ p, e.parent = some p ∧ p ∈ log.entries) ∧
      ∀ h ∈ log.entries, ∃ root, log.root = some root ∧
        (log.ancestry h).head? = some root) ∧
    (new.insertAll C es₁).root = (new.insertAll C es₂).root ∧
    (new.insertAll C es₁).children = (new.insertAll C es₂).children ∧
    (new.insertAll C es₁).heads = (new.insertAll C es₂).heads ∧
    (new.insertAll C es₁).canonicalChain = (new.insertAll C es₂).canonicalChain ∧
    ∀ wanted held max, (new.insertAll C es₁).ancestorsFirst wanted held max =
      (new.insertAll C es₂).ancestorsFirst wanted held max := by
  have hwf₁ : Wf C (new.insertAll C es₁) :=
    (within_new.insertAll hfree fun e he => List.mem_append_left es₂ he).wf
  have hwf₂ : Wf C (new.insertAll C es₂) :=
    (within_new.insertAll hfree fun e he => List.mem_append_right es₁ he).wf
  have heq : new.insertAll C es₁ = new.insertAll C es₂ :=
    hwf₁.eq_of_stored hwf₂ hsame
      (insertAll_finalized.trans insertAll_finalized.symm)
  refine ⟨?_, by rw [heq], by rw [heq], by rw [heq], by rw [heq],
    fun _ _ _ => by rw [heq]⟩
  intro log hlog
  have hwf : Wf C log := by
    simp only [List.mem_cons, List.not_mem_nil, or_false] at hlog
    rcases hlog with rfl | rfl
    · exact hwf₁
    · exact hwf₂
  refine ⟨fun p h => ?_, fun h e he hroot => ?_, fun h hmem => ?_⟩
  · rw [mem_siblings, hwf.child_iff]
    exact Option.bind_eq_some_iff
  · cases hp : e.parent with
    | none =>
        refine absurd ((hwf.root_iff h).2 ⟨?_, ?_⟩) hroot
        · exact (BTreeMap.mem_iff_exists _ _).2 ⟨e, he⟩
        · rw [parentOf_of_getElem? he, hp]
    | some p =>
        refine ⟨p, rfl, hwf.parent_mem h p ?_⟩
        rw [parentOf_of_getElem? he, hp]
  · obtain ⟨hhead, hroot⟩ := hwf.ancestry_head hmem
    obtain ⟨root, hroot⟩ := Option.isSome_iff_exists.1 hroot
    exact ⟨root, hroot, hhead.trans hroot⟩

/-- A founding entry and two admissions on top of it. -/
def shortLog : List LogEntry :=
  [Sample.genesis 0 .conservativeDefault [],
    Sample.entry 1 (some 0) 1 1 (Sample.admits 2),
    Sample.entry 2 (some 1) 2 1 (Sample.admits 3)]

/-- The children come before their parents at first, and everything comes
twice in the end. -/
theorem insertAll_determined_reversed :
    (new.insertAll .sample shortLog).canonicalChain.length = 3 ∧
      (new.insertAll .sample (shortLog.reverse ++ shortLog ++
          shortLog)).canonicalChain =
        (new.insertAll .sample shortLog).canonicalChain := by
  have hentries : (new.insertAll .sample shortLog).entries =
      (new.insertAll .sample (shortLog.reverse ++ shortLog ++ shortLog)).entries := by
    decide +kernel
  have hfree : CollisionFree .sample {e | e ∈ shortLog} :=
    collisionFree_of_nodup (by decide +kernel)
  have heq := insertAll_determined (C := .sample) shortLog
    (shortLog.reverse ++ shortLog ++ shortLog)
    (hfree.mono fun e he => by simpa using he)
    (fun e => by rw [Stored, Stored, hentries])
  exact ⟨by decide +kernel, heq.2.2.2.2.1.symm⟩

end GovernanceLog

end Intranet
