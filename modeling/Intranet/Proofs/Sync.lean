import Intranet.Ref.Sync
import Intranet.Proofs.ForkChoice

/-!
# What one round of sync achieves

Three things about a response hold for any two logs with one founding entry.
It is in an order the receiver can insert, so nothing in it is rejected; if
it was not cut, the receiver ends up with every head it asked for; and the
log it is inserted into only grows.

Progress is another matter. The responder leaves out what lies above the
requester's heads, and a head it does not know excludes nothing but itself.
When both sides have moved on from a long shared part, all of that part is
sent again, from the root down, and a cut response may hold nothing new.
`Fresh` makes that exact: a round brings something new exactly when, among
what is sent, fewer entries than the cut come before the first one the
requester lacks. `not_fresh_side` is a family of pairs of logs, one for every
cut, for which it fails.
-/

namespace Intranet

namespace GovernanceLog

variable {C : Crypto} {S : Set LogEntry} {A B log log' : GovernanceLog}
  {h p x : Hash} {max : ℕ}

/-! ## Heads and responses -/

theorem Wf.mem_heads (hwf : Wf C log) : h ∈ log.heads ↔ log.Leaf h := by
  rw [heads, List.mem_insertionSort, List.mem_filter, Std.ExtTreeMap.mem_keys,
    Leaf]
  refine and_congr_right fun _ => ?_
  cases hc : log.children[h]? with
  | none =>
      refine iff_of_true rfl fun x hx => ?_
      obtain ⟨set, hset, -⟩ := (hwf.child_iff h x).2 hx
      rw [hc] at hset
      cases hset
  | some set =>
      -- an index entry is never empty
      obtain ⟨x, hx⟩ := hwf.inhabited h set hc
      refine iff_of_false ?_ fun hleaf => ?_
      · intro hempty
        have := Std.ExtTreeSet.isEmpty_iff.1 hempty
        rw [this] at hx
        simp at hx
      · exact hleaf x ((hwf.child_iff h x).1 ⟨set, hc, hx⟩)

theorem mem_foldl_insert_unless {excluded : BTreeSet Hash} (xs : List Hash)
    (set : BTreeSet Hash) :
    x ∈ xs.foldl (fun set a =>
        if excluded.contains a then set else set.insert a) set ↔
      x ∈ set ∨ (x ∈ xs ∧ x ∉ excluded) := by
  have hfilter : xs.foldl (fun set a =>
      if excluded.contains a then set else set.insert a) set =
      (xs.filter fun a => !excluded.contains a).foldl
        (fun set a => set.insert a) set := by
    rw [List.foldl_filter]
    congr 1
    funext set a
    cases excluded.contains a <;> rfl
  rw [hfilter, BTreeSet.mem_foldl_insert, List.mem_filter, Bool.not_eq_true',
    ← Bool.not_eq_true, Std.ExtTreeSet.contains_iff_mem]

theorem mem_excludedBy {held : List Hash} :
    x ∈ log.excludedBy held ↔ ∃ a ∈ held, x ∈ log.ancestry a := by
  have hgen : ∀ set : BTreeSet Hash, x ∈ held.foldl (fun set hash =>
      (log.ancestry hash).foldl (fun set ancestor => set.insert ancestor) set)
        set ↔ x ∈ set ∨ ∃ a ∈ held, x ∈ log.ancestry a := by
    induction held with
    | nil => simp
    | cons a held ih =>
        intro set
        rw [List.foldl_cons, ih, BTreeSet.mem_foldl_insert]
        simp only [List.mem_cons, exists_eq_or_imp]
        tauto
  rw [excludedBy, hgen]
  simp

theorem mem_neededFor {wanted : List Hash} {excluded : BTreeSet Hash} :
    x ∈ log.neededFor wanted excluded ↔
      ∃ w ∈ wanted, w ∈ log.entries ∧ x ∈ log.ancestry w ∧ x ∉ excluded := by
  have hgen : ∀ set : BTreeSet Hash, x ∈ wanted.foldl (fun set hash =>
      if !log.entries.contains hash then set
      else (log.ancestry hash).foldl (fun set ancestor =>
        if excluded.contains ancestor then set else set.insert ancestor) set)
        set ↔ x ∈ set ∨ ∃ w ∈ wanted, w ∈ log.entries ∧ x ∈ log.ancestry w ∧
          x ∉ excluded := by
    induction wanted with
    | nil => simp
    | cons w wanted ih =>
        intro set
        rw [List.foldl_cons, ih]
        simp only [List.mem_cons, exists_eq_or_imp]
        cases hw : log.entries.contains w with
        | true =>
            have hw := Std.ExtTreeMap.contains_iff_mem.1 hw
            rw [Bool.not_true, if_neg Bool.false_ne_true, mem_foldl_insert_unless]
            tauto
        | false =>
            have hw : w ∉ log.entries := by
              rw [← Std.ExtTreeMap.contains_iff_mem, hw]
              exact Bool.false_ne_true
            rw [Bool.not_false, if_pos rfl]
            tauto
  rw [neededFor, hgen]
  simp

/-! ## The order of a response -/

/-- Depth from the root, then hash. -/
def depthKey (log : GovernanceLog) (h : Hash) : ℕ ×ₗ Hash :=
  toLex ((log.ancestry h).length, h)

/-- The hashes of a response before the cut. -/
def orderedHashes (log : GovernanceLog) (wanted held : List Hash) :
    List Hash :=
  (log.orderedFor wanted held).map Prod.snd

theorem depthOrder_iff {a b : ℕ × Hash} :
    depthOrder a b ↔ toLex a ≤ toLex b := by
  rw [depthOrder, Prod.Lex.toLex_le_toLex]

instance : IsTrans (ℕ × Hash) depthOrder :=
  ⟨fun a b c hab hbc => by
    rw [depthOrder_iff] at hab hbc ⊢
    exact hab.trans hbc⟩

instance : Std.Total depthOrder :=
  ⟨fun a b => by
    rw [depthOrder_iff, depthOrder_iff]
    exact le_total _ _⟩

theorem mem_orderedHashes {wanted held : List Hash} :
    x ∈ log.orderedHashes wanted held ↔
      x ∈ log.neededFor wanted (log.excludedBy held) := by
  rw [orderedHashes, orderedFor, List.mem_map]
  simp only [List.mem_insertionSort, List.mem_map, Std.ExtTreeSet.mem_toList]
  constructor
  · intro hgiven
    obtain ⟨o, ⟨h, hh, rfl⟩, rfl⟩ := hgiven
    exact hh
  · intro hx
    exact ⟨_, ⟨x, hx, rfl⟩, rfl⟩

/-- A response is in strictly ascending order of depth and hash. -/
theorem orderedHashes_pairwise (log : GovernanceLog)
    (wanted held : List Hash) :
    (log.orderedHashes wanted held).Pairwise fun a b =>
      log.depthKey a < log.depthKey b := by
  have hkeyed : ∀ o ∈ log.orderedFor wanted held,
      toLex o = log.depthKey o.2 := by
    intro o ho
    rw [orderedFor, List.mem_insertionSort, List.mem_map] at ho
    obtain ⟨h, -, rfl⟩ := ho
    rfl
  have hsorted : (log.orderedFor wanted held).Pairwise depthOrder :=
    List.pairwise_insertionSort _ _
  have hnodup : (log.orderedFor wanted held).Nodup := by
    rw [orderedFor, (List.perm_insertionSort _ _).nodup_iff]
    refine List.Nodup.map (fun a b hab => congrArg Prod.snd hab) ?_
    exact (BTreeSet.toList_pairwise _).imp ne_of_lt
  rw [orderedHashes, List.pairwise_map]
  refine (hsorted.and hnodup).imp_of_mem fun {a b} ha hb hab => ?_
  rw [← hkeyed a ha, ← hkeyed b hb]
  exact lt_of_le_of_ne (depthOrder_iff.1 hab.1) hab.2

theorem ancestorsFirst_eq (wanted held : List Hash) (max : ℕ) :
    log.ancestorsFirst wanted held max =
      (((log.orderedHashes wanted held).take max).filterMap
          fun h => log.entries[h]?,
        decide (max < (log.orderedHashes wanted held).length)) := by
  rw [ancestorsFirst, orderedHashes, ← List.map_take, List.filterMap_map,
    List.length_map]
  rfl

/-! ## Inserting a response -/

theorem root_inserted {e : LogEntry} {root : Hash} (hacc : log.Accepts C e)
    (hroot : log.root = some root) : (log.inserted C e).root = some root := by
  obtain ⟨-, hstruct⟩ := hacc
  rw [inserted]
  split at hstruct
  · exact congrArg some (hstruct.2 root hroot).symm
  · exact hroot

/-- An entry of one log is accepted by another with the same root that holds
its parent. The entry without a parent is the root both share. -/
theorem Wf.accepts_of_same_root {root : Hash} (hB : Wf C B)
    (hrootB : B.root = some root) (hrootA : A.root = some root)
    (he : B.entries[h]? = some e)
    (hparent : ∀ p, e.parent = some p → p ∈ A.entries) : A.Accepts C e := by
  refine ⟨hB.signed h e he, ?_⟩
  cases hp : e.parent with
  | none =>
      have hroot : B.root = some h := (hB.root_iff h).2
        ⟨(BTreeMap.mem_iff_exists _ _).2 ⟨e, he⟩,
          (parentOf_of_getElem? he).trans hp⟩
      refine ⟨hB.founding h e he hp, fun r hr => ?_⟩
      rw [hrootA] at hr
      rw [hrootB] at hroot
      cases hr
      cases hroot
      exact (hB.keyed h e he).symm
  | some p => exact hparent p hp

/-- Entries of one log, in an order in which each parent is held already or
comes before, are all accepted by another log with the same root. -/
theorem Within.receive_linked (hB : Within C S B) (hfree : CollisionFree C S)
    {root : Hash} (hrootB : B.root = some root) {hs : List Hash}
    (hA : Within C S A) (hrootA : A.root = some root)
    (hmem : ∀ h ∈ hs, h ∈ B.entries)
    (hlink : ∀ pre h post, hs = pre ++ h :: post → ∀ p,
      B.parentOf h = some p → p ∈ A.entries ∨ p ∈ pre) (accepted : ℕ) :
    ∃ A', receive C (hs.filterMap fun h => B.entries[h]?) A accepted 0 =
        (A', accepted + hs.length, 0) ∧
      Within C S A' ∧ A'.root = some root ∧ Extends A A' ∧
      ∀ x, x ∈ A'.entries ↔ x ∈ A.entries ∨ x ∈ hs := by
  induction hs generalizing A accepted with
  | nil => exact ⟨A, rfl, hA, hrootA, Extends.refl A, by simp⟩
  | cons h hs ih =>
      obtain ⟨e, he⟩ := (BTreeMap.mem_iff_exists _ _).1
        (hmem h List.mem_cons_self)
      have hkey := hB.wf.keyed h e he
      have hin : e ∈ S := hB.mem e ⟨h, he⟩
      have hparent := parentOf_of_getElem? he
      have hacc : A.Accepts C e := by
        refine hB.wf.accepts_of_same_root hrootB hrootA he fun p hp => ?_
        rcases hlink [] h hs rfl p (hparent.trans hp) with hheld | hpre
        · exact hheld
        · cases hpre
      have hins : A.insert C e = .ok (e.hash C, A.inserted C e) :=
        insert_ok_iff.2 ⟨hacc, rfl, rfl⟩
      have hA₁ := hA.insert hfree hin hins
      have hmem₁ : ∀ x, x ∈ (A.inserted C e).entries ↔ x = h ∨ x ∈ A.entries := by
        intro x
        rw [mem_inserted, hkey, eq_comm]
      obtain ⟨A', hrec, hwithin, hroot', hext, hiff⟩ := ih hA₁
        (root_inserted hacc hrootA) (fun x hx => hmem x (List.mem_cons_of_mem h hx))
        (fun pre x post hsplit p hp => by
          rcases hlink (h :: pre) x post (by rw [hsplit]; rfl) p hp with hheld | hpre
          · exact Or.inl ((hmem₁ p).2 (.inr hheld))
          · rcases List.mem_cons.1 hpre with rfl | hpre
            · exact Or.inl ((hmem₁ p).2 (.inl rfl))
            · exact Or.inr hpre) (accepted + 1)
      refine ⟨A', ?_, hwithin, hroot', ?_, fun x => ?_⟩
      · rw [List.filterMap_cons, he]
        dsimp only
        rw [receive, hins]
        dsimp only
        rw [hrec, List.length_cons, Nat.add_assoc, Nat.add_comm 1]
      · have hstep := hA.extends_tryInsert hfree hin
        rw [GovernanceLog.tryInsert, hins] at hstep
        exact hstep.trans hext
      · rw [hiff, hmem₁, List.mem_cons]
        tauto

/-- Where two logs hold the same hash, they hold the same entry, so what lies
above a shared entry in one is held by the other. -/
theorem Within.mem_of_above (hA : Within C S A) (hB : Within C S B)
    (hfree : CollisionFree C S) {a : Hash}
    (habove : Walk.Above B.parentOf x a) (ha : a ∈ A.entries) :
    x ∈ A.entries := by
  induction habove with
  | refl => exact ha
  | @tail y z _ hyz hy =>
      obtain ⟨e, he⟩ := (BTreeMap.mem_iff_exists _ _).1 hy
      obtain ⟨e', he'⟩ := (BTreeMap.mem_iff_exists _ _).1 (mem_of_parentOf hyz)
      have heq : e = e' := hfree (hA.mem e ⟨y, he⟩) (hB.mem e' ⟨y, he'⟩)
        ((hA.wf.keyed y e he).trans (hB.wf.keyed y e' he').symm)
      refine hA.wf.parent_mem y z ?_
      rw [parentOf_of_getElem? he, heq, ← parentOf_of_getElem? he', hyz]

/-! ## What a round sends -/

/-- Above a head of `B` that `A` lacks, and above no head of `A`, by the
links `B` has. -/
def Sent (A B : GovernanceLog) (x : Hash) : Prop :=
  (∃ w, B.Leaf w ∧ w ∉ A.entries ∧ Walk.Above B.parentOf x w) ∧
    ∀ a, A.Leaf a → ¬ Walk.Above B.parentOf x a

/-- What `B` answers to `A`, before the cut. -/
def responseTo (A B : GovernanceLog) : List Hash :=
  B.orderedHashes (A.wantedFrom B.heads) A.heads

theorem Wf.mem_wantedFrom (hB : Wf C B) :
    x ∈ A.wantedFrom B.heads ↔ B.Leaf x ∧ x ∉ A.entries := by
  rw [wantedFrom, List.mem_filter, hB.mem_heads, get, Option.isNone_iff_eq_none,
    BTreeMap.getElem?_eq_none_iff]

theorem Wf.mem_responseTo (hA : Wf C A) (hB : Wf C B) :
    x ∈ responseTo A B ↔ Sent A B x := by
  rw [responseTo, mem_orderedHashes, mem_neededFor, Sent]
  simp only [mem_excludedBy, hB.mem_wantedFrom, hA.mem_heads, hB.mem_ancestry]
  constructor
  · intro hgiven
    obtain ⟨w, ⟨hleaf, hlacks⟩, -, habove, hnot⟩ := hgiven
    exact ⟨⟨w, hleaf, hlacks, habove⟩, fun a ha hup => hnot ⟨a, ha, hup⟩⟩
  · intro hgiven
    obtain ⟨⟨w, hleaf, hlacks, habove⟩, hnot⟩ := hgiven
    refine ⟨w, ⟨hleaf, hlacks⟩, hleaf.1, habove, ?_⟩
    intro hgiven
    obtain ⟨a, ha, hup⟩ := hgiven
    exact hnot a ha hup

theorem Wf.depthKey_lt (hwf : Wf C log) (hp : log.parentOf h = some p) :
    log.depthKey p < log.depthKey h := by
  rw [depthKey, depthKey, Prod.Lex.toLex_lt_toLex, hwf.ancestry_some hp]
  left
  simp

theorem Wf.depthKey_le_of_above (hwf : Wf C log)
    (habove : Walk.Above log.parentOf x h) :
    log.depthKey x ≤ log.depthKey h := by
  induction habove with
  | refl => exact le_rfl
  | tail _ hlink ih => exact (hwf.depthKey_lt hlink).le.trans ih

/-- In a response, each parent is held already or comes before. -/
theorem responseTo_linked (hA : Within C S A) (hB : Within C S B)
    (hfree : CollisionFree C S) {pre post : List Hash}
    (hsplit : (responseTo A B).take max = pre ++ h :: post)
    (hp : B.parentOf h = some p) : p ∈ A.entries ∨ p ∈ pre := by
  have hfull : responseTo A B =
      pre ++ h :: (post ++ (responseTo A B).drop max) := by
    conv_lhs => rw [← List.take_append_drop max (responseTo A B), hsplit]
    simp
  have hh : h ∈ responseTo A B := by
    rw [hfull]
    simp
  obtain ⟨⟨w, hleaf, hlacks, habove⟩, -⟩ := (hA.wf.mem_responseTo hB.wf).1 hh
  have hpw : Walk.Above B.parentOf p w :=
    .trans (Walk.above_iff.2 (.inr ⟨p, hp, .refl p⟩)) habove
  by_cases hout : ∃ a, A.Leaf a ∧ Walk.Above B.parentOf p a
  · obtain ⟨a, ha, hup⟩ := hout
    exact Or.inl (hA.mem_of_above hB hfree hup ha.1)
  · have hsent : p ∈ responseTo A B := (hA.wf.mem_responseTo hB.wf).2
      ⟨⟨w, hleaf, hlacks, hpw⟩, fun a ha hup => hout ⟨a, ha, hup⟩⟩
    have hsorted := orderedHashes_pairwise B
      (A.wantedFrom B.heads) A.heads
    change (responseTo A B).Pairwise _ at hsorted
    have hlt := hB.wf.depthKey_lt hp
    rw [hfull, List.mem_append, List.mem_cons] at hsent
    rw [hfull, List.pairwise_append, List.pairwise_cons] at hsorted
    rcases hsent with hpre | rfl | hlater
    · exact Or.inr hpre
    · exact absurd hlt (lt_irrefl _)
    · exact absurd (hsorted.2.1.1 p hlater) (lt_asymm hlt)

/-! ## One round -/

/-- What a round is for: something new arrives, nothing is rejected, and an
answer that was not cut delivers every head asked for. -/
structure RoundSucceeds (C : Crypto) (max : ℕ) (A B : GovernanceLog) :
    Prop where
  progress : ∃ x ∈ (syncRound C max A B).log.entries, x ∉ A.entries
  accepted : (syncRound C max A B).rejected = 0
  complete : (syncRound C max A B).truncated = false →
    ∀ w ∈ A.wantedFrom B.heads, w ∈ (syncRound C max A B).log.entries

/-- Fewer than `max` of the entries sent come before one that `A` lacks. -/
def Fresh (max : ℕ) (A B : GovernanceLog) : Prop :=
  ∃ y, Sent A B y ∧ y ∉ A.entries ∧
    {x | Sent A B x ∧ B.depthKey x < B.depthKey y}.ncard < max

/-- The effect of a round that asks for something. -/
theorem syncRound_spec (hA : Within C S A) (hB : Within C S B)
    (hfree : CollisionFree C S) {root : Hash} (hrootA : A.root = some root)
    (hrootB : B.root = some root) (max : ℕ)
    (hwant : ∃ w, B.Leaf w ∧ w ∉ A.entries) :
    Within C S (syncRound C max A B).log ∧
      (syncRound C max A B).log.root = some root ∧
      Extends A (syncRound C max A B).log ∧
      (syncRound C max A B).rejected = 0 ∧
      (∀ x, x ∈ (syncRound C max A B).log.entries ↔
        x ∈ A.entries ∨ x ∈ (responseTo A B).take max) ∧
      (syncRound C max A B).truncated =
        decide (max < (responseTo A B).length) := by
  obtain ⟨w, hw⟩ := hwant
  have hasks : (A.wantedFrom B.heads).isEmpty = false := by
    rw [List.isEmpty_eq_false_iff]
    exact List.ne_nil_of_mem (hB.wf.mem_wantedFrom.2 hw)
  have hstored : ∀ h ∈ (responseTo A B).take max, h ∈ B.entries := by
    intro h hh
    obtain ⟨⟨w, hleaf, -, habove⟩, -⟩ :=
      (hA.wf.mem_responseTo hB.wf).1 (List.mem_of_mem_take hh)
    exact hB.wf.mem_of_above habove hleaf.1
  obtain ⟨A', hrec, hwithin, hroot', hext, hiff⟩ :=
    hB.receive_linked hfree hrootB hA hrootA hstored
      (fun pre h post hsplit p hp => responseTo_linked hA hB hfree hsplit hp) 0
  have hround : syncRound C max A B = ⟨A', 0 + ((responseTo A B).take max).length,
      0, decide (max < (responseTo A B).length)⟩ := by
    rw [syncRound, hasks, ancestorsFirst_eq]
    dsimp only
    rw [responseTo] at hrec
    rw [if_neg Bool.false_ne_true, hrec]
    rfl
  rw [hround]
  exact ⟨hwithin, hroot', hext, rfl, hiff, rfl⟩

/-- A round succeeds exactly when it is fresh. -/
theorem roundSucceeds_iff (hA : Within C S A) (hB : Within C S B)
    (hfree : CollisionFree C S) {root : Hash} (hrootA : A.root = some root)
    (hrootB : B.root = some root) (hwant : ∃ w, B.Leaf w ∧ w ∉ A.entries) :
    RoundSucceeds C max A B ↔ Fresh max A B := by
  obtain ⟨-, -, -, hrejected, hentries, htruncated⟩ :=
    syncRound_spec hA hB hfree hrootA hrootB max hwant
  have hmem : ∀ x, x ∈ responseTo A B ↔ Sent A B x :=
    fun x => hA.wf.mem_responseTo hB.wf
  have htake : ∀ y, y ∈ (responseTo A B).take max ↔ Sent A B y ∧
      {x | Sent A B x ∧ B.depthKey x < B.depthKey y}.ncard < max := by
    intro y
    have hsorted := orderedHashes_pairwise B
      (A.wantedFrom B.heads) A.heads
    rw [SortedList.mem_take_iff (l := responseTo A B) hsorted]
    simp only [hmem]
  constructor
  · intro hgiven
    obtain ⟨⟨y, hy, hlacks⟩, -, -⟩ := hgiven
    rcases (hentries y).1 hy with hheld | hsent
    · exact absurd hheld hlacks
    · exact ⟨y, ((htake y).1 hsent).1, hlacks, ((htake y).1 hsent).2⟩
  · intro hgiven
    obtain ⟨y, hsent, hlacks, hcard⟩ := hgiven
    refine ⟨⟨y, (hentries y).2 (.inr ((htake y).2 ⟨hsent, hcard⟩)), hlacks⟩,
      hrejected, fun hwhole w hw => ?_⟩
    -- a head asked for is above none of the requester's: it would be held
    have hw := hB.wf.mem_wantedFrom.1 hw
    have hsent : w ∈ responseTo A B := (hmem w).2
      ⟨⟨w, hw.1, hw.2, .refl w⟩, fun a ha hup =>
        hw.2 (hA.mem_of_above hB hfree hup ha.1)⟩
    rw [htruncated, decide_eq_false_iff_not, not_lt] at hwhole
    refine (hentries w).2 (.inr ?_)
    rw [List.take_of_length_le hwhole]
    exact hsent

/-! ## Round after round -/

/-- How many entries of `B` are not in `A`. -/
def missing (A B : GovernanceLog) : ℕ :=
  (B.entries.keys.filter fun h => decide (h ∉ A.entries)).length

theorem missing_lt {A' : GovernanceLog} (hext : Extends A A')
    (hx : x ∈ B.entries) (hnew : x ∈ A'.entries) (hlacks : x ∉ A.entries) :
    missing A' B < missing A B := by
  refine BTreeMap.length_filter_keys_lt (fun h hh hin => hh ?_) hx hlacks ?_
  · exact hext.mem hin
  · simpa using hnew

/-- A log that holds every head of another holds all of it. -/
theorem Within.holds_all (hA : Within C S A) (hB : Within C S B)
    (hfree : CollisionFree C S) (hheads : ∀ w, B.Leaf w → w ∈ A.entries) :
    ∀ h ∈ B.entries, h ∈ A.entries := by
  intro h hh
  obtain ⟨l, hleaf, habove, -⟩ := hB.wf.chainThrough_tip hh
  exact hA.mem_of_above hB hfree habove (hheads l hleaf)

theorem syncRound_idle (hB : Wf C B) (max : ℕ)
    (hidle : ∀ w, B.Leaf w → w ∈ A.entries) :
    syncRound C max A B = ⟨A, 0, 0, false⟩ := by
  have hnone : (A.wantedFrom B.heads).isEmpty = true := by
    rw [List.isEmpty_iff, List.eq_nil_iff_forall_not_mem]
    intro w hw
    obtain ⟨hleaf, hlacks⟩ := hB.mem_wantedFrom.1 hw
    exact hlacks (hidle w hleaf)
  rw [syncRound, hnone]
  rfl

/-- If every round that asks for something is fresh, repeating the round while
the answer is cut ends, and ends with everything the responder holds. -/
theorem sync_finishes (hA : Within C S A) (hB : Within C S B)
    (hfree : CollisionFree C S) {root : Hash} (hrootA : A.root = some root)
    (hrootB : B.root = some root)
    (hfresh : ∀ n, (∃ w, B.Leaf w ∧ w ∉ (afterRounds C max B n A).entries) →
      Fresh max (afterRounds C max B n A) B) :
    ∃ n, (∀ i < n,
        (syncRound C max (afterRounds C max B i A) B).truncated = true) ∧
      (syncRound C max (afterRounds C max B n A) B).truncated = false ∧
      ∀ h ∈ B.entries, h ∈ (afterRounds C max B (n + 1) A).entries := by
  induction hm : missing A B using Nat.strong_induction_on generalizing A with
  | _ m ih =>
      by_cases hwant : ∃ w, B.Leaf w ∧ w ∉ A.entries
      · obtain ⟨hwithin, hroot', hext, -, hentries, -⟩ :=
          syncRound_spec hA hB hfree hrootA hrootB max hwant
        obtain ⟨⟨x, hx, hlacks⟩, -, hcomplete⟩ :=
          (roundSucceeds_iff hA hB hfree hrootA hrootB hwant).2 (hfresh 0 hwant)
        cases hcut : (syncRound C max A B).truncated with
        | false =>
            refine ⟨0, fun i hi => absurd hi (Nat.not_lt_zero i), hcut, ?_⟩
            refine hwithin.holds_all hB hfree fun w hw => ?_
            by_cases hheld : w ∈ A.entries
            · exact hext.mem hheld
            · exact hcomplete hcut w (hB.wf.mem_wantedFrom.2 ⟨hw, hheld⟩)
        | true =>
            have hxB : x ∈ B.entries := by
              rcases (hentries x).1 hx with hheld | hsent
              · exact absurd hheld hlacks
              · obtain ⟨⟨w, hleaf, -, habove⟩, -⟩ :=
                  (hA.wf.mem_responseTo hB.wf).1 (List.mem_of_mem_take hsent)
                exact hB.wf.mem_of_above habove hleaf.1
            obtain ⟨n, hbefore, hlast, hall⟩ := ih _
              (hm ▸ missing_lt hext hxB hx hlacks) hwithin hroot'
              (fun n => hfresh (n + 1)) rfl
            refine ⟨n + 1, fun i hi => ?_, hlast, hall⟩
            cases i with
            | zero => exact hcut
            | succ i => exact hbefore i (by omega)
      · have hidle : ∀ w, B.Leaf w → w ∈ A.entries := by
          intro w hw
          by_contra hlacks
          exact hwant ⟨w, hw, hlacks⟩
        have hround := syncRound_idle hB.wf max hidle
        refine ⟨0, fun i hi => absurd hi (Nat.not_lt_zero i), ?_, ?_⟩
        · rw [afterRounds, hround]
        · rw [afterRounds, hround]
          exact hA.holds_all hB hfree hidle

/-- For two logs built by inserts from one founding entry: a round in which
some head of the responder is missing succeeds exactly when it is fresh; and
if every such round is, repeating it while the answer is cut ends with the
requester holding everything the responder does. -/
theorem sync_round_succeeds_iff {esA esB : List LogEntry}
    (hfree : CollisionFree C {e | e ∈ esA ++ esB}) {root : Hash}
    (hrootA : (new.insertAll C esA).root = some root)
    (hrootB : (new.insertAll C esB).root = some root) :
    ((∃ w ∈ (new.insertAll C esB).heads, (new.insertAll C esA).get w = none) →
      (RoundSucceeds C maxEntriesPerResponse (new.insertAll C esA)
          (new.insertAll C esB) ↔
        Fresh maxEntriesPerResponse (new.insertAll C esA)
          (new.insertAll C esB))) ∧
    ((∀ n, (∃ w ∈ (new.insertAll C esB).heads,
        (afterRounds C maxEntriesPerResponse (new.insertAll C esB) n
          (new.insertAll C esA)).get w = none) →
        Fresh maxEntriesPerResponse (afterRounds C maxEntriesPerResponse
          (new.insertAll C esB) n (new.insertAll C esA))
            (new.insertAll C esB)) →
      ∃ n, (∀ i < n, (syncRound C maxEntriesPerResponse
          (afterRounds C maxEntriesPerResponse (new.insertAll C esB) i
            (new.insertAll C esA)) (new.insertAll C esB)).truncated = true) ∧
        (syncRound C maxEntriesPerResponse (afterRounds C maxEntriesPerResponse
          (new.insertAll C esB) n (new.insertAll C esA))
            (new.insertAll C esB)).truncated = false ∧
        ∀ h ∈ (new.insertAll C esB).entries,
          h ∈ (afterRounds C maxEntriesPerResponse (new.insertAll C esB) (n + 1)
            (new.insertAll C esA)).entries) := by
  have hA : Within C {e | e ∈ esA ++ esB} (new.insertAll C esA) :=
    within_new.insertAll hfree fun e he => List.mem_append_left esB he
  have hB : Within C {e | e ∈ esA ++ esB} (new.insertAll C esB) :=
    within_new.insertAll hfree fun e he => List.mem_append_right esA he
  have hwant : ∀ log : GovernanceLog,
      (∃ w ∈ (new.insertAll C esB).heads, log.get w = none) ↔
        ∃ w, (new.insertAll C esB).Leaf w ∧ w ∉ log.entries := by
    intro log
    simp only [hB.wf.mem_heads, get, BTreeMap.getElem?_eq_none_iff]
  simp only [hwant]
  exact ⟨roundSucceeds_iff hA hB hfree hrootA hrootB,
    sync_finishes hA hB hfree hrootA hrootB⟩

/-! ## Two logs that moved on from a long shared part

Entry `0` founds the network, entries up to `n` follow one on another, and
every entry from `n` on is a rotation on top of the shared part. Both sides
hold the shared part and one rotation, each its own. -/

/-- The entry with hash `i`, for a shared part of `n` entries. -/
def member (n : ℕ) : ℕ → LogEntry
  | 0 => Sample.genesis 0 .conservativeDefault []
  | i + 1 => Sample.entry (i + 1) (some (min i (n - 1))) 0 1
      (.epochRotation .selfInitiated [])

/-- The shared part and the rotation `tip`. -/
def side (n tip : ℕ) : List LogEntry := (List.range n ++ [tip]).map (member n)

theorem hash_member (n i : ℕ) : (member n i).hash .sample = Sample.hash i := by
  cases i with
  | zero => exact Sample.hash_entry _ _ _ _ _
  | succ i => exact Sample.hash_entry _ _ _ _ _

theorem collisionFree_member {n : ℕ} {is : List ℕ}
    (his : ∀ i ∈ is, i < 256 ^ 32) :
    CollisionFree .sample {e | e ∈ is.map (member n)} := by
  intro e he e' he' heq
  obtain ⟨i, hi, rfl⟩ := List.mem_map.1 he
  obtain ⟨j, hj, rfl⟩ := List.mem_map.1 he'
  rw [hash_member, hash_member] at heq
  rw [Sample.hash_inj (his i hi) (his j hj) heq]

theorem tryInsert_of_accepts {e : LogEntry} (hacc : log.Accepts C e) :
    log.tryInsert C e = log.inserted C e := by
  rw [tryInsert, insert_ok_iff.2 ⟨hacc, rfl, rfl⟩]

/-- A member is accepted once its predecessor is held, and joins the rest. -/
theorem insert_member {n i : ℕ}
    (hheld : Sample.hash (min i (n - 1)) ∈ log.entries) :
    h ∈ (log.tryInsert .sample (member n (i + 1))).entries ↔
      h ∈ log.entries ∨ h = Sample.hash (i + 1) := by
  have hacc : log.Accepts .sample (member n (i + 1)) :=
    ⟨Sample.verifySignature_entry _ _ _ _ _, hheld⟩
  rw [tryInsert_of_accepts hacc, mem_inserted, hash_member, eq_comm]
  tauto

theorem root_insert_member {n i : ℕ} :
    (log.tryInsert .sample (member n (i + 1))).root = log.root := by
  unfold tryInsert
  split
  · next hins =>
      obtain ⟨-, -, rfl⟩ := insert_ok_iff.1 hins
      rfl
  · rfl

theorem insertAll_snoc (es : List LogEntry) (e : LogEntry) :
    log.insertAll C (es ++ [e]) = (log.insertAll C es).tryInsert C e := by
  rw [insertAll, List.foldl_append]
  rfl

/-- The first `k + 1` members of the shared part are all stored. -/
theorem insertAll_range {n k : ℕ} (hk : k < n) :
    (new.insertAll .sample ((List.range (k + 1)).map (member n))).root =
        some (Sample.hash 0) ∧
      ∀ h, h ∈ (new.insertAll .sample
          ((List.range (k + 1)).map (member n))).entries ↔
        ∃ i < k + 1, h = Sample.hash i := by
  induction k with
  | zero =>
      have hacc : new.Accepts .sample (member n 0) := by
        refine ⟨Sample.verifySignature_entry _ _ _ _ _, rfl, fun r hr => ?_⟩
        cases hr
      have hlog : new.insertAll .sample ((List.range 1).map (member n)) =
          new.inserted .sample (member n 0) := by
        rw [← tryInsert_of_accepts hacc]
        rfl
      rw [hlog]
      refine ⟨congrArg some (hash_member n 0), fun h => ?_⟩
      rw [mem_inserted, hash_member]
      constructor
      · intro hcase
        rcases hcase with rfl | hnew
        · exact ⟨0, by omega, rfl⟩
        · simp [new] at hnew
      · intro hgiven
        obtain ⟨i, hi, rfl⟩ := hgiven
        rw [Nat.lt_one_iff.1 hi]
        exact Or.inl rfl
  | succ k ih =>
      obtain ⟨hroot, hmem⟩ := ih (by omega)
      rw [List.range_succ, List.map_append, List.map_singleton, insertAll_snoc]
      refine ⟨root_insert_member.trans hroot, fun h => ?_⟩
      rw [insert_member ((hmem _).2 ⟨_, by omega, rfl⟩), hmem]
      constructor
      · intro hcase
        rcases hcase with ⟨i, hi, rfl⟩ | rfl
        · exact ⟨i, by omega, rfl⟩
        · exact ⟨k + 1, by omega, rfl⟩
      · intro hgiven
        obtain ⟨i, hi, rfl⟩ := hgiven
        rcases Nat.lt_succ_iff_lt_or_eq.1 hi with hlt | rfl
        · exact Or.inl ⟨i, hlt, rfl⟩
        · exact Or.inr rfl

/-- A side holds the shared part and its tip. -/
theorem insertAll_side {n tip : ℕ} (hn : 0 < n) (htip : n ≤ tip) :
    (new.insertAll .sample (side n tip)).root = some (Sample.hash 0) ∧
      ∀ h, h ∈ (new.insertAll .sample (side n tip)).entries ↔
        ∃ i, (i < n ∨ i = tip) ∧ h = Sample.hash i := by
  obtain ⟨k, rfl⟩ : ∃ k, n = k + 1 := ⟨n - 1, by omega⟩
  obtain ⟨t, rfl⟩ : ∃ t, tip = t + 1 := ⟨tip - 1, by omega⟩
  obtain ⟨hroot, hmem⟩ := insertAll_range (n := k + 1) (k := k) (by omega)
  rw [side, List.map_append, List.map_singleton, insertAll_snoc]
  refine ⟨root_insert_member.trans hroot, fun h => ?_⟩
  rw [insert_member ((hmem _).2 ⟨_, by omega, rfl⟩), hmem]
  constructor
  · intro hcase
    rcases hcase with ⟨i, hi, rfl⟩ | rfl
    · exact ⟨i, Or.inl hi, rfl⟩
    · exact ⟨t + 1, Or.inr rfl, rfl⟩
  · intro hgiven
    obtain ⟨i, hi | rfl, rfl⟩ := hgiven
    · exact Or.inl ⟨i, hi, rfl⟩
    · exact Or.inr rfl

/-- No two entries of two sides have one hash. -/
theorem collisionFree_sides {n tip tip' : ℕ} (hn : n < 256 ^ 32)
    (htip : tip < 256 ^ 32) (htip' : tip' < 256 ^ 32) :
    CollisionFree .sample {e | e ∈ side n tip ++ side n tip'} := by
  rw [side, side, ← List.map_append]
  refine collisionFree_member fun i hi => ?_
  simp only [List.mem_append, List.mem_range, List.mem_singleton] at hi
  omega

theorem wf_side {n tip : ℕ} (htip : n ≤ tip) (hfit : tip < 256 ^ 32) :
    Wf .sample (new.insertAll .sample (side n tip)) := by
  have hfree : CollisionFree .sample {e | e ∈ side n tip ++ side n tip} :=
    collisionFree_sides (by omega) hfit hfit
  exact (within_new.insertAll hfree fun e he => List.mem_append_left _ he).wf

section Side

variable {n tip : ℕ} (hn : 0 < n) (htip : n ≤ tip) (hfit : tip < 256 ^ 32)
include hn htip hfit

theorem parentOf_side {i : ℕ} (hi : i < n ∨ i = tip) :
    (new.insertAll .sample (side n tip)).parentOf (Sample.hash i) =
      (member n i).parent := by
  obtain ⟨-, hmem⟩ := insertAll_side hn htip
  obtain ⟨e, he⟩ := (BTreeMap.mem_iff_exists _ _).1
    ((hmem (Sample.hash i)).2 ⟨i, hi, rfl⟩)
  rw [parentOf_of_getElem? he]
  -- the entry under that hash is a member, and the hash tells which
  rcases stored_insertAll ⟨_, he⟩ with hside | hnew
  · obtain ⟨j, hj, rfl⟩ := List.mem_map.1 hside
    have hkey := (wf_side htip hfit).keyed _ _ he
    rw [hash_member] at hkey
    simp only [List.mem_append, List.mem_range, List.mem_singleton] at hj
    rw [Sample.hash_inj (by omega) (by omega) hkey]
  · obtain ⟨_, hh⟩ := hnew
    simp [new] at hh

theorem above_side {i j : ℕ} (hij : i ≤ j) (hj : j < n) :
    Walk.Above (new.insertAll .sample (side n tip)).parentOf (Sample.hash i)
      (Sample.hash j) := by
  induction j, hij using Nat.le_induction with
  | base => exact .refl _
  | succ j hij ih =>
      have hp := parentOf_side hn htip hfit (Or.inl hj)
      rw [member, Sample.entry, Option.map_some, Nat.min_eq_left (by omega)] at hp
      exact (ih (by omega)).trans (Walk.above_iff.2 (.inr ⟨_, hp, .refl _⟩))

theorem above_tip {i : ℕ} (hi : i < n) :
    Walk.Above (new.insertAll .sample (side n tip)).parentOf (Sample.hash i)
      (Sample.hash tip) := by
  obtain ⟨t, rfl⟩ : ∃ t, tip = t + 1 := ⟨tip - 1, by omega⟩
  have hp := parentOf_side hn htip hfit (Or.inr rfl)
  rw [member, Sample.entry, Option.map_some, Nat.min_eq_right (by omega)] at hp
  exact (above_side hn htip hfit (by omega) (by omega)).trans
    (Walk.above_iff.2 (.inr ⟨_, hp, .refl _⟩))

theorem leaf_side :
    (new.insertAll .sample (side n tip)).Leaf h ↔ h = Sample.hash tip := by
  obtain ⟨-, hmem⟩ := insertAll_side hn htip
  have hleaf : (new.insertAll .sample (side n tip)).Leaf (Sample.hash tip) := by
    refine ⟨(hmem _).2 ⟨tip, Or.inr rfl, rfl⟩, fun x hx => ?_⟩
    obtain ⟨j, hj, rfl⟩ := (hmem x).1 (mem_of_parentOf hx)
    rw [parentOf_side hn htip hfit hj] at hx
    cases j with
    | zero => cases hx
    | succ j =>
        rw [member, Sample.entry, Option.map_some, Option.some.injEq] at hx
        have := Sample.hash_inj (by omega) (by omega) hx
        omega
  refine ⟨fun hh => ?_, fun hh => hh ▸ hleaf⟩
  obtain ⟨i, hi | rfl, rfl⟩ := (hmem h).1 hh.1
  · -- whatever lies above the tip has a child on the way down
    rcases Relation.ReflTransGen.cases_tail (above_tip hn htip hfit hi) with
      heq | ⟨y, -, hy⟩
    · exact heq
    · exact absurd hy (hh.2 y)
  · rfl

end Side

/-- With a shared part as long as the cut, nothing that is sent is new. -/
theorem not_fresh_side {n : ℕ} (hn : 0 < n) (hfit : n + 1 < 256 ^ 32) :
    ¬ Fresh n (new.insertAll .sample (side n n))
      (new.insertAll .sample (side n (n + 1))) := by
  obtain ⟨-, hmemA⟩ := insertAll_side hn (le_refl n)
  obtain ⟨-, hmemB⟩ := insertAll_side hn (Nat.le_succ n)
  have hleafA := fun h => leaf_side (h := h) hn (le_refl n) (by omega)
  have hleafB := fun h => leaf_side (h := h) hn (Nat.le_succ n) hfit
  have hwfB := wf_side (Nat.le_succ n) hfit
  have hlacks : Sample.hash (n + 1) ∉ (new.insertAll .sample (side n n)).entries := by
    intro hin
    obtain ⟨i, hi, heq⟩ := (hmemA _).1 hin
    have := Sample.hash_inj (by omega) (by omega) heq
    omega
  have hsent : ∀ i < n, Sent (new.insertAll .sample (side n n))
      (new.insertAll .sample (side n (n + 1))) (Sample.hash i) := by
    intro i hi
    refine ⟨⟨_, (hleafB _).2 rfl, hlacks, above_tip hn (by omega) hfit hi⟩, ?_⟩
    intro a ha hup
    rw [(hleafA a).1 ha] at hup
    -- the responder does not hold the requester's tip
    rcases Walk.above_iff.1 hup with heq | ⟨p, hp, -⟩
    · have := Sample.hash_inj (by omega) (by omega) heq
      omega
    · obtain ⟨j, hj, heq⟩ := (hmemB _).1 (mem_of_parentOf hp)
      have := Sample.hash_inj (by omega) (by omega) heq
      omega
  intro hgiven
  obtain ⟨y, ⟨⟨w, hw, -, habove⟩, -⟩, hy, hcard⟩ := hgiven
  obtain ⟨i, hi, rfl⟩ := (hmemB y).1 (hwfB.mem_of_above habove hw.1)
  have hi : i = n + 1 := by
    rcases hi with hi | hi
    · exact absurd ((hmemA _).2 ⟨i, Or.inl hi, rfl⟩) hy
    · exact hi
  subst hi
  refine absurd hcard (not_lt.2 ?_)
  have hcount : ((Finset.range n).image Sample.hash).card = n := by
    rw [Finset.card_image_of_injOn, Finset.card_range]
    intro i hi j hj heq
    have hi := Finset.mem_range.1 hi
    have hj := Finset.mem_range.1 hj
    exact Sample.hash_inj (by omega) (by omega) heq
  conv_lhs => rw [← hcount, ← Set.ncard_coe_finset]
  refine Set.ncard_le_ncard (fun x hx => ?_) ?_
  · obtain ⟨i, hi, rfl⟩ := Finset.mem_image.1 (Finset.mem_coe.1 hx)
    have hi := Finset.mem_range.1 hi
    refine ⟨hsent i hi, lt_of_le_of_ne (hwfB.depthKey_le_of_above
      (above_tip hn (by omega) hfit hi)) fun heq => ?_⟩
    have hhash : Sample.hash i = Sample.hash (n + 1) :=
      congrArg (fun k => (ofLex k).2) heq
    have := Sample.hash_inj (by omega) (by omega) hhash
    omega
  · refine (List.finite_toSet (new.insertAll .sample
      (side n (n + 1))).entries.keys).subset fun x hx => ?_
    obtain ⟨⟨⟨w, hw, -, habove⟩, -⟩, -⟩ := hx
    exact Std.ExtTreeMap.mem_keys.2 (hwfB.mem_of_above habove hw.1)

/-- Right after the founding entry both sides moved on: the round succeeds,
so it was fresh. -/
theorem sync_round_succeeds_iff_short :
    RoundSucceeds .sample maxEntriesPerResponse
        (new.insertAll .sample (side 1 1)) (new.insertAll .sample (side 1 2)) ∧
      Fresh maxEntriesPerResponse
        (new.insertAll .sample (side 1 1)) (new.insertAll .sample (side 1 2)) := by
  have hround : RoundSucceeds .sample maxEntriesPerResponse
      (new.insertAll .sample (side 1 1)) (new.insertAll .sample (side 1 2)) :=
    ⟨⟨Sample.hash 2, by decide +kernel, by decide +kernel⟩, by decide +kernel,
      by decide +kernel⟩
  have hfree : CollisionFree .sample {e | e ∈ side 1 1 ++ side 1 2} :=
    collisionFree_sides (by omega) (by omega) (by omega)
  obtain ⟨hrootA, -⟩ := insertAll_side Nat.one_pos (le_refl 1)
  obtain ⟨hrootB, -⟩ := insertAll_side Nat.one_pos (Nat.le_succ 1)
  refine ⟨hround, ((sync_round_succeeds_iff hfree hrootA hrootB).1 ?_).1 hround⟩
  exact ⟨Sample.hash 2, by decide +kernel, by decide +kernel⟩

/-- After as many shared entries as a response holds, the round brings
nothing and is cut, so it will be repeated as it was. -/
theorem sync_round_stalls :
    (new.insertAll .sample (side maxEntriesPerResponse 512)).root =
        some (Sample.hash 0) ∧
      (new.insertAll .sample (side maxEntriesPerResponse 513)).root =
        some (Sample.hash 0) ∧
      (∃ w ∈ (new.insertAll .sample (side maxEntriesPerResponse 513)).heads,
        (new.insertAll .sample (side maxEntriesPerResponse 512)).get w = none) ∧
      ¬ RoundSucceeds .sample maxEntriesPerResponse
        (new.insertAll .sample (side maxEntriesPerResponse 512))
        (new.insertAll .sample (side maxEntriesPerResponse 513)) := by
  have hfit : maxEntriesPerResponse + 1 < 256 ^ 32 := by decide
  have hn : 0 < maxEntriesPerResponse := by decide
  have hfree : CollisionFree .sample {e | e ∈ side maxEntriesPerResponse 512 ++
      side maxEntriesPerResponse 513} :=
    collisionFree_sides (by omega) (by omega) (by omega)
  obtain ⟨hrootA, hmemA⟩ := insertAll_side hn (le_refl maxEntriesPerResponse)
  obtain ⟨hrootB, -⟩ := insertAll_side hn (Nat.le_succ maxEntriesPerResponse)
  have hleaf := leaf_side (h := Sample.hash 513) hn
    (Nat.le_succ maxEntriesPerResponse) hfit
  have hlacks : Sample.hash 513 ∉ (new.insertAll .sample
      (side maxEntriesPerResponse 512)).entries := by
    intro hin
    obtain ⟨i, hi, heq⟩ := (hmemA _).1 hin
    rw [maxEntriesPerResponse] at hi
    have := Sample.hash_inj (by omega) (by omega) heq
    omega
  have hA := within_new.insertAll hfree fun e he => List.mem_append_left _ he
  have hB := within_new.insertAll hfree fun e he => List.mem_append_right _ he
  refine ⟨hrootA, hrootB, ⟨_, hB.wf.mem_heads.2 (hleaf.2 rfl),
    (BTreeMap.getElem?_eq_none_iff _ _).2 hlacks⟩, ?_⟩
  rw [roundSucceeds_iff hA hB hfree hrootA hrootB ⟨_, hleaf.2 rfl, hlacks⟩]
  exact not_fresh_side hn hfit

end GovernanceLog

end Intranet
