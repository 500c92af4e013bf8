import Intranet.Ref.Keyring
import Intranet.Proofs.Finality

/-!
# What a keyring keeps

`reconcile_records` is the exact account of one reconciliation: a key stays
when its rotation is on the canonical chain and no held rotation after it is
final, and nothing else stays. The pass decides this by looking at
neighbours; that finality is inherited by everything above it is what makes
the neighbours enough.
-/

namespace Intranet

namespace GovernanceLog

variable {C : Crypto} {log log' : GovernanceLog} {h h' : Hash}

/-! ## The canonical rotations -/

theorem mem_canonicalRotations : h ∈ log.canonicalRotations ↔
    h ∈ log.canonicalChain ∧
      ((log.get h).any fun entry => entry.body.producesEpoch) = true :=
  List.mem_filter

theorem Wf.canonicalChain_pairwise (hwf : Wf C log) :
    log.canonicalChain.Pairwise fun a b => Walk.Above log.parentOf a b := by
  cases hroot : log.root with
  | none =>
      rw [canonicalChain, hroot]
      exact List.Pairwise.nil
  | some root =>
      obtain ⟨t, -, hchain, -⟩ := hwf.canonicalChain_tip (hwf.root_mem hroot)
      rw [hchain]
      exact hwf.ancestry_pairwise t

theorem Wf.above_antisymm (hwf : Wf C log)
    (hup : Walk.Above log.parentOf h h') (hdown : Walk.Above log.parentOf h' h) :
    h = h' := by
  obtain ⟨rank, hfall, -⟩ := hwf.ranked
  exact hup.antisymm hfall hdown

/-- On the canonical chain, earlier means above. -/
theorem Wf.earlier_iff (hwf : Wf C log) :
    Earlier log.canonicalChain h h' ↔
      h ∈ log.canonicalChain ∧ h' ∈ log.canonicalChain ∧
        Walk.Above log.parentOf h h' ∧ h ≠ h' := by
  constructor
  · intro hearly
    exact ⟨hearly.mem_left, hearly.mem_right,
      hearly.of_pairwise hwf.canonicalChain_pairwise,
      hearly.ne hwf.canonicalChain_nodup⟩
  · intro hgiven
    obtain ⟨hh, hh', hup, hne⟩ := hgiven
    rcases Earlier.total hh hh' hne with hearly | hlate
    · exact hearly
    · have hdown := hlate.of_pairwise hwf.canonicalChain_pairwise
      exact absurd (hwf.above_antisymm hup hdown) hne

/-- A later rotation of the canonical chain. -/
theorem earlier_canonicalRotations_iff :
    Earlier log.canonicalRotations h h' ↔ Earlier log.canonicalChain h h' ∧
      h ∈ log.canonicalRotations ∧ h' ∈ log.canonicalRotations := by
  constructor
  · intro hearly
    exact ⟨hearly.mono List.filter_sublist, hearly.mem_left, hearly.mem_right⟩
  · intro hgiven
    obtain ⟨hearly, hh, hh'⟩ := hgiven
    exact Earlier.filter_iff.2 ⟨hearly, (mem_canonicalRotations.1 hh).2,
      (mem_canonicalRotations.1 hh').2⟩

theorem Wf.isFinal_of_above (hwf : Wf C log)
    (hup : Walk.Above log.parentOf h h') (hfinal : log.isFinal h' = true) :
    log.isFinal h = true := by
  obtain ⟨f, hf, hmem⟩ := isFinal_iff.1 hfinal
  exact isFinal_iff.2 ⟨f, hf, hwf.mem_ancestry.2
    (hup.trans (hwf.mem_ancestry.1 hmem))⟩

theorem Wf.isFinal_of_earlier (hwf : Wf C log)
    (hearly : Earlier log.canonicalRotations h h')
    (hfinal : log.isFinal h' = true) : log.isFinal h = true :=
  hwf.isFinal_of_above ((hearly.mono List.filter_sublist).of_pairwise
    hwf.canonicalChain_pairwise) hfinal

end GovernanceLog

namespace EpochKeyring

open GovernanceLog

variable {C : Crypto} {log : GovernanceLog} {ring : EpochKeyring}
  {pass : Pass} {h : Hash}

/-! ## The loops -/

theorem voidOne_records (pass : Pass) (hash : Hash) :
    (voidOne pass hash).1.records = pass.1.records.erase hash := by
  unfold voidOne
  dsimp only
  split <;> rfl

theorem voidOne_order (pass : Pass) (hash : Hash) :
    (voidOne pass hash).1.order = pass.1.order.filter (· ≠ hash) := by
  unfold voidOne
  dsimp only
  split <;> rfl

theorem voidOne_canonical (pass : Pass) (hash : Hash) :
    (voidOne pass hash).1.canonical =
      if pass.1.canonical = some hash then none else pass.1.canonical := by
  unfold voidOne
  dsimp only
  split <;> rfl

theorem voidOne_voided (pass : Pass) (hash : Hash) :
    (voidOne pass hash).2.voided = pass.2.voided ++ [hash] := by
  unfold voidOne
  dsimp only
  split <;> rfl

theorem voided_records (doomed : List Hash) (pass : Pass) :
    (doomed.foldl voidOne pass).1.records[h]? =
      if h ∈ doomed then none else pass.1.records[h]? := by
  induction doomed generalizing pass with
  | nil => rfl
  | cons d doomed ih =>
      rw [List.foldl_cons, ih, voidOne_records, BTreeMap.getElem?_erase_ite]
      by_cases hd : h = d
      · simp [hd]
      · simp [hd, Ne.symm hd]

theorem voided_canonical (doomed : List Hash) (pass : Pass) :
    (doomed.foldl voidOne pass).1.canonical =
      pass.1.canonical.filter fun held => held ∉ doomed := by
  induction doomed generalizing pass with
  | nil =>
      cases hc : pass.1.canonical with
      | none => simp [hc]
      | some c => simp [hc, Option.filter]
  | cons d doomed ih =>
      rw [List.foldl_cons, ih, voidOne_canonical]
      cases hc : pass.1.canonical with
      | none => simp
      | some c =>
          by_cases hd : c = d
          · simp [hd, Option.filter]
          · simp [hd, Option.filter]

theorem voided_report (doomed : List Hash) (pass : Pass) :
    (doomed.foldl voidOne pass).2.voided = pass.2.voided ++ doomed := by
  induction doomed generalizing pass with
  | nil => simp
  | cons d doomed ih =>
      rw [List.foldl_cons, ih, voidOne_voided, List.append_assoc,
        List.singleton_append]

/-- A record after the finality pass. -/
def marked (log : GovernanceLog) (record : EpochRecord) : EpochRecord :=
  if becomesFinal log record then { record with status := .final } else record

theorem marked_ref (r : EpochRecord) :
    (marked log r).rotationRef = r.rotationRef := by
  unfold marked
  split <;> rfl

theorem marked_key (r : EpochRecord) : (marked log r).key = r.key := by
  unfold marked
  split <;> rfl

theorem markFinal_records (pass : Pass) :
    (markFinal log pass).1.records[h]? = pass.1.records[h]?.map (marked log) := by
  simp only [markFinal, Std.ExtTreeMap.getElem?_map]
  rfl

theorem mem_markFinal (pass : Pass) :
    h ∈ (markFinal log pass).1.records ↔ h ∈ pass.1.records :=
  Std.ExtTreeMap.mem_map

theorem adopt_records (rotations : List Hash) (ring : EpochKeyring) :
    (adopt rotations ring).records = ring.records := by
  unfold adopt
  split <;> rfl

/-- Whether the keyring has `n` marked as final. -/
def MarkedFinal (ring : EpochKeyring) (n : Hash) : Prop :=
  ∃ r, ring.records[n]? = some r ∧ r.status = .final

theorem pruneOne_cases (pass : Pass) (a b : Hash) :
    (MarkedFinal pass.1 b ∧ a ∈ pass.1.records ∧
      pruneOne pass (a, b) =
        (pass.1.forget a, { pass.2 with pruned := pass.2.pruned ++ [a] })) ∨
    (¬ (MarkedFinal pass.1 b ∧ a ∈ pass.1.records) ∧
      pruneOne pass (a, b) = pass) := by
  have htest : ((pass.1.records[b]?.any fun record =>
      decide (record.status = .final)) && pass.1.records.contains a) = true ↔
      MarkedFinal pass.1 b ∧ a ∈ pass.1.records := by
    rw [Bool.and_eq_true, Option.any_eq_true]
    simp only [decide_eq_true_eq]
    rfl
  unfold pruneOne
  dsimp only
  split
  · next h => exact Or.inl ⟨(htest.1 h).1, (htest.1 h).2, rfl⟩
  · next h => exact Or.inr ⟨fun hgiven => h (htest.2 hgiven), rfl⟩

theorem forget_records (ring : EpochKeyring) (a : Hash) :
    (ring.forget a).records[h]? = if a = h then none else ring.records[h]? := by
  rw [forget, BTreeMap.getElem?_erase_ite]
  by_cases hah : a = h
  · rw [if_pos hah, if_pos hah]
  · rw [if_neg hah, if_neg hah]

/-- Forgetting one record leaves the marks of the others. -/
theorem markedFinal_forget {ring : EpochKeyring} {a n : Hash} (hne : a ≠ n) :
    MarkedFinal (ring.forget a) n ↔ MarkedFinal ring n := by
  rw [MarkedFinal, MarkedFinal, forget_records, if_neg hne]

/-- What stands behind any but the first does not depend on the first. -/
theorem exists_neighbour_cons {a b : Hash} {held : List Hash}
    {P : Hash → Prop} (hah : a ≠ h) :
    (∃ n, (h, n) ∈ neighbours (a :: b :: held) ∧ P n) ↔
      ∃ n, (h, n) ∈ neighbours (b :: held) ∧ P n := by
  rw [neighbours_cons_cons]
  refine exists_congr fun n => and_congr_left fun _ => ?_
  rw [List.mem_cons]
  constructor
  · rintro (hpair | hn)
    · cases hpair
      exact absurd rfl hah
    · exact hn
  · exact Or.inr

/-- The pruning loop drops whatever stands right before a final rotation. -/
theorem pruned_records {held : List Hash} (hnodup : held.Nodup) (pass : Pass)
    (hheld : ∀ x ∈ held, x ∈ pass.1.records) {r : EpochRecord} :
    ((neighbours held).foldl pruneOne pass).1.records[h]? = some r ↔
      pass.1.records[h]? = some r ∧
        ¬ ∃ n, (h, n) ∈ neighbours held ∧ MarkedFinal pass.1 n := by
  induction held generalizing pass with
  | nil => simp [neighbours]
  | cons a held ih =>
      cases held with
      | nil => simp [neighbours]
      | cons b held =>
          have htail := (List.nodup_cons.1 hnodup).2
          have ha : a ∈ pass.1.records := hheld a List.mem_cons_self
          have hne : ∀ x ∈ b :: held, a ≠ x := by
            intro x hx heq
            exact (List.nodup_cons.1 hnodup).1 (heq ▸ hx)
          have hfirst : (a, b) ∈ neighbours (a :: b :: held) := by
            rw [neighbours_cons_cons]
            exact List.mem_cons_self
          rw [neighbours_cons_cons, List.foldl_cons, ← neighbours_cons_cons]
          rcases pruneOne_cases pass a b with ⟨hb, -, heq⟩ | ⟨hb, heq⟩
          · -- `a` goes, and nothing the rest of the loop reads changes
            rw [heq, ih htail _ (fun x hx => by
              rw [BTreeMap.mem_iff_exists, forget_records, if_neg (hne x hx),
                ← BTreeMap.mem_iff_exists]
              exact hheld x (List.mem_cons_of_mem a hx))]
            dsimp only
            rw [forget_records]
            by_cases hah : a = h
            · rw [if_pos hah]
              constructor
              · intro hgiven
                cases hgiven.1
              · intro hgiven
                exact absurd ⟨b, hah ▸ hfirst, hb⟩ hgiven.2
            · rw [if_neg hah, exists_neighbour_cons hah]
              refine and_congr_right fun _ => not_congr (exists_congr fun n =>
                and_congr_right fun hn => ?_)
              exact markedFinal_forget
                (hne n (earlier_of_neighbour hn).mem_right)
          · rw [heq, ih htail pass fun x hx =>
              hheld x (List.mem_cons_of_mem a hx)]
            refine and_congr_right fun _ => not_congr (exists_congr fun n =>
              and_congr_left fun hfinal => ?_)
            rw [neighbours_cons_cons, List.mem_cons]
            constructor
            · exact Or.inr
            · rintro (hpair | hn)
              · cases hpair
                exact absurd ⟨hfinal, ha⟩ hb
              · exact hn

theorem pruned_canonical (ws : List (Hash × Hash)) (pass : Pass) :
    (ws.foldl pruneOne pass).1.canonical = pass.1.canonical := by
  induction ws generalizing pass with
  | nil => rfl
  | cons w ws ih =>
      obtain ⟨a, b⟩ := w
      rw [List.foldl_cons, ih]
      rcases pruneOne_cases pass a b with ⟨-, -, heq⟩ | ⟨-, heq⟩
      · rw [heq]
        rfl
      · rw [heq]

/-! ## The invariants -/

/-- The records are filed under their own rotations, and the order names each
of them once. -/
structure Kept (ring : EpochKeyring) : Prop where
  keyed : ∀ (h : Hash) r, ring.records[h]? = some r → r.rotationRef = h
  nodup : ring.order.Nodup
  mem_order : ∀ h : Hash, h ∈ ring.order ↔ h ∈ ring.records

theorem kept_new : Kept new where
  keyed h r hr := by simp [new] at hr
  nodup := List.nodup_nil
  mem_order h := by simp [new]

theorem Kept.forget (hkept : Kept ring) (hash : Hash) :
    Kept (ring.forget hash) where
  keyed h r hr := by
    rw [forget_records] at hr
    split at hr
    · cases hr
    · exact hkept.keyed h r hr
  nodup := hkept.nodup.filter _
  mem_order h := by
    rw [BTreeMap.mem_iff_exists, forget_records, EpochKeyring.forget,
      List.mem_filter, hkept.mem_order, BTreeMap.mem_iff_exists]
    by_cases hh : hash = h
    · simp [hh]
    · simp [hh, Ne.symm hh]

theorem Kept.congr {ring' : EpochKeyring} (hkept : Kept ring)
    (hrecords : ring'.records = ring.records) (horder : ring'.order = ring.order) :
    Kept ring' := by
  refine ⟨?_, ?_, ?_⟩
  · rw [hrecords]
    exact hkept.keyed
  · rw [horder]
    exact hkept.nodup
  · rw [hrecords, horder]
    exact hkept.mem_order

theorem Kept.voided (doomed : List Hash) (pass : Pass) (hkept : Kept pass.1) :
    Kept (doomed.foldl voidOne pass).1 := by
  induction doomed generalizing pass with
  | nil => exact hkept
  | cons d doomed ih =>
      rw [List.foldl_cons]
      exact ih _ ((hkept.forget d).congr (voidOne_records pass d)
        (voidOne_order pass d))

theorem Kept.pruned (ws : List (Hash × Hash)) (pass : Pass)
    (hkept : Kept pass.1) : Kept (ws.foldl pruneOne pass).1 := by
  induction ws generalizing pass with
  | nil => exact hkept
  | cons w ws ih =>
      obtain ⟨a, b⟩ := w
      rw [List.foldl_cons]
      rcases pruneOne_cases pass a b with ⟨-, -, heq⟩ | ⟨-, heq⟩
      · rw [heq]
        exact ih _ (hkept.forget a)
      · rw [heq]
        exact ih _ hkept

theorem Kept.markFinal (hkept : Kept pass.1) :
    Kept (EpochKeyring.markFinal log pass).1 where
  keyed h r hr := by
    rw [markFinal_records, Option.map_eq_some_iff] at hr
    obtain ⟨r₀, hr₀, rfl⟩ := hr
    rw [marked_ref]
    exact hkept.keyed h r₀ hr₀
  nodup := hkept.nodup
  mem_order h := by
    rw [mem_markFinal]
    exact hkept.mem_order h

theorem Kept.adopt (hkept : Kept ring) (rotations : List Hash) :
    Kept (EpochKeyring.adopt rotations ring) := by
  unfold EpochKeyring.adopt
  split
  · exact hkept.congr rfl rfl
  · exact hkept

theorem Kept.record (hkept : Kept ring) (r : Hash) (epoch : UInt64)
    (key : EpochKey) : Kept (ring.record r epoch key) where
  keyed h rec hrec := by
    rw [EpochKeyring.record, BTreeMap.getElem?_insert_ite] at hrec
    split at hrec
    · next hh =>
        cases hrec
        exact hh
    · exact hkept.keyed h rec hrec
  nodup := by
    unfold EpochKeyring.record
    dsimp only
    split
    · exact hkept.nodup
    · next hnew =>
        refine hkept.nodup.append (List.nodup_singleton r) ?_
        simpa using hnew
  mem_order h := by
    unfold EpochKeyring.record
    dsimp only
    rw [BTreeMap.mem_insert_iff, ← hkept.mem_order]
    split
    · next hold =>
        constructor
        · exact Or.inr
        · intro hcase
          rcases hcase with rfl | hmem
          · simpa using hold
          · exact hmem
    · rw [List.mem_append, List.mem_singleton, or_comm]
      exact or_congr_left eq_comm

/-- Every reconciliation keeps the records and the order in step. -/
theorem Kept.reconcile (hkept : Kept ring) (log : GovernanceLog) :
    Kept (ring.reconcile log).2 :=
  Kept.pruned _ _ (Kept.adopt (Kept.markFinal (Kept.voided _ _ hkept)) _)

/-- What is marked as final is final in the log. -/
def Settled (log : GovernanceLog) (ring : EpochKeyring) : Prop :=
  ∀ (h : Hash) r, ring.records[h]? = some r → r.status = .final →
    log.isFinal h = true

/-! ## One reconciliation -/

section Reconcile

variable {r : EpochRecord} {log : GovernanceLog} {ring : EpochKeyring}

/-- The keyring after voiding and marking. -/
def markedRing (log : GovernanceLog) (ring : EpochKeyring) : EpochKeyring :=
  (markFinal log (voidDoomed log.canonicalRotations (ring, .unchanged))).1

theorem mem_doomed : h ∈ (ring.records.keys.filter fun hash =>
      !log.canonicalRotations.contains hash) ↔
    h ∈ ring.records ∧ h ∉ log.canonicalRotations := by
  rw [List.mem_filter, Std.ExtTreeMap.mem_keys]
  simp

theorem markedRing_records : (markedRing log ring).records[h]? = some r ↔
    h ∈ log.canonicalRotations ∧
      ∃ r₀, ring.records[h]? = some r₀ ∧ marked log r₀ = r := by
  rw [markedRing, markFinal_records, Option.map_eq_some_iff, voidDoomed,
    voided_records]
  by_cases hh : h ∈ log.canonicalRotations
  · rw [if_neg fun hdoomed => (mem_doomed.1 hdoomed).2 hh]
    simp only [hh, true_and]
  · constructor
    · intro hgiven
      obtain ⟨r₀, hr₀, -⟩ := hgiven
      split at hr₀
      · cases hr₀
      · next hdoomed =>
          have hmem := (BTreeMap.mem_iff_exists _ _).2 ⟨r₀, hr₀⟩
          exact absurd (mem_doomed.2 ⟨hmem, hh⟩) hdoomed
    · intro hgiven
      exact absurd hgiven.1 hh

theorem mem_markedRing : h ∈ (markedRing log ring).records ↔
    h ∈ log.canonicalRotations ∧ h ∈ ring.records := by
  rw [BTreeMap.mem_iff_exists, BTreeMap.mem_iff_exists]
  simp only [markedRing_records]
  constructor
  · intro hgiven
    obtain ⟨_, hh, r₀, hr₀, -⟩ := hgiven
    exact ⟨hh, r₀, hr₀⟩
  · intro hgiven
    obtain ⟨hh, r₀, hr₀⟩ := hgiven
    exact ⟨_, hh, r₀, hr₀, rfl⟩

theorem marked_status (hkept : Kept ring) (hset : Settled log ring)
    (hr : ring.records[h]? = some r) :
    (marked log r).status = .final ↔ log.isFinal h = true := by
  have hkey := hkept.keyed h r hr
  have hold := hset h r hr
  unfold marked becomesFinal
  rw [hkey]
  cases hs : r.status with
  | tentative => cases hf : log.isFinal h <;> simp [hs]
  | final => simp [hs, hold hs]

theorem markedFinal_iff (hkept : Kept ring) (hset : Settled log ring) :
    MarkedFinal (markedRing log ring) h ↔
      h ∈ log.canonicalRotations ∧ h ∈ ring.records ∧ log.isFinal h = true := by
  constructor
  · intro hgiven
    obtain ⟨r, hr, hfinal⟩ := hgiven
    obtain ⟨hh, r₀, hr₀, rfl⟩ := markedRing_records.1 hr
    exact ⟨hh, (BTreeMap.mem_iff_exists _ _).2 ⟨r₀, hr₀⟩,
      (marked_status hkept hset hr₀).1 hfinal⟩
  · intro hgiven
    obtain ⟨hh, hmem, hfinal⟩ := hgiven
    obtain ⟨r₀, hr₀⟩ := (BTreeMap.mem_iff_exists _ _).1 hmem
    exact ⟨marked log r₀, markedRing_records.2 ⟨hh, r₀, hr₀, rfl⟩,
      (marked_status hkept hset hr₀).2 hfinal⟩

/-- A held rotation after `h` on the canonical chain is final. -/
def Superseded (log : GovernanceLog) (ring : EpochKeyring) (h : Hash) : Prop :=
  ∃ n ∈ ring.records, Earlier log.canonicalRotations h n ∧
    log.isFinal n = true

theorem canonicalRotations_nodup (hwf : Wf C log) :
    log.canonicalRotations.Nodup :=
  hwf.canonicalChain_nodup.filter _

/-- The pruning loop finds exactly the superseded keys. -/
theorem neighbour_final_iff (hwf : Wf C log) (hkept : Kept ring)
    (hset : Settled log ring) (hh : h ∈ log.canonicalRotations)
    (hmem : h ∈ ring.records) :
    (∃ n, (h, n) ∈ neighbours (log.canonicalRotations.filter fun hash =>
        (markedRing log ring).records.contains hash) ∧
      MarkedFinal (markedRing log ring) n) ↔ Superseded log ring h := by
  have hheld : ∀ x : Hash, (markedRing log ring).records.contains x = true ↔
      x ∈ log.canonicalRotations ∧ x ∈ ring.records := by
    intro x
    rw [Std.ExtTreeMap.contains_iff_mem, mem_markedRing]
  rw [exists_neighbour_iff]
  · constructor
    · intro hgiven
      obtain ⟨n, hearly, hfinal⟩ := hgiven
      obtain ⟨-, hn, hfinal⟩ := (markedFinal_iff hkept hset).1 hfinal
      exact ⟨n, hn, (Earlier.filter_iff.1 hearly).1, hfinal⟩
    · intro hgiven
      obtain ⟨n, hn, hearly, hfinal⟩ := hgiven
      have hn' := hearly.mem_right
      exact ⟨n, Earlier.filter_iff.2 ⟨hearly, (hheld h).2 ⟨hh, hmem⟩,
        (hheld n).2 ⟨hn', hn⟩⟩, (markedFinal_iff hkept hset).2 ⟨hn', hn, hfinal⟩⟩
  · -- finality is inherited by everything above
    intro x y hearly hfinal
    obtain ⟨hxy, hx, -⟩ := Earlier.filter_iff.1 hearly
    have hy := ((markedFinal_iff hkept hset).1 hfinal).2.2
    exact (markedFinal_iff hkept hset).2 ⟨((hheld x).1 hx).1, ((hheld x).1 hx).2,
      hwf.isFinal_of_earlier hxy hy⟩

/-- What a reconciliation leaves: the keys of the canonical rotations that no
held final rotation supersedes, each with its mark brought up to date. -/
theorem reconcile_records (hwf : Wf C log) (hkept : Kept ring)
    (hset : Settled log ring) :
    (ring.reconcile log).2.records[h]? = some r ↔
      h ∈ log.canonicalRotations ∧ ¬ Superseded log ring h ∧
        ∃ r₀, ring.records[h]? = some r₀ ∧ marked log r₀ = r := by
  have hadopted : ∀ rotations, (adopt rotations (markedRing log ring)).records =
      (markedRing log ring).records := fun rotations => adopt_records rotations _
  have hprune : (ring.reconcile log).2.records[h]? = some r ↔
      (markedRing log ring).records[h]? = some r ∧
        ¬ ∃ n, (h, n) ∈ neighbours (log.canonicalRotations.filter fun hash =>
            (markedRing log ring).records.contains hash) ∧
          MarkedFinal (markedRing log ring) n := by
    have hloop := @pruned_records h
      (log.canonicalRotations.filter fun hash =>
        (markedRing log ring).records.contains hash)
      ((canonicalRotations_nodup hwf).filter _)
      (adopt log.canonicalRotations (markedRing log ring),
        (markFinal log (voidDoomed log.canonicalRotations
          (ring, .unchanged))).2)
      (by
        intro x hx
        rw [hadopted]
        exact Std.ExtTreeMap.contains_iff_mem.1 (List.mem_filter.1 hx).2) r
    simp only [MarkedFinal, hadopted] at hloop
    simp only [MarkedFinal]
    rw [← hloop]
    simp only [reconcile, prune, adopt_records]
    rfl
  rw [hprune, markedRing_records]
  constructor
  · intro hgiven
    obtain ⟨⟨hh, r₀, hr₀, hmark⟩, hnot⟩ := hgiven
    have hmem := (BTreeMap.mem_iff_exists _ _).2 ⟨r₀, hr₀⟩
    rw [neighbour_final_iff hwf hkept hset hh hmem] at hnot
    exact ⟨hh, hnot, r₀, hr₀, hmark⟩
  · intro hgiven
    obtain ⟨hh, hnot, r₀, hr₀, hmark⟩ := hgiven
    have hmem := (BTreeMap.mem_iff_exists _ _).2 ⟨r₀, hr₀⟩
    rw [← neighbour_final_iff hwf hkept hset hh hmem] at hnot
    exact ⟨⟨hh, r₀, hr₀, hmark⟩, hnot⟩

theorem mem_reconcile (hwf : Wf C log) (hkept : Kept ring)
    (hset : Settled log ring) : h ∈ (ring.reconcile log).2.records ↔
      h ∈ log.canonicalRotations ∧ h ∈ ring.records ∧
        ¬ Superseded log ring h := by
  rw [BTreeMap.mem_iff_exists, BTreeMap.mem_iff_exists]
  simp only [reconcile_records hwf hkept hset]
  constructor
  · intro hgiven
    obtain ⟨_, hh, hnot, r₀, hr₀, -⟩ := hgiven
    exact ⟨hh, ⟨r₀, hr₀⟩, hnot⟩
  · intro hgiven
    obtain ⟨hh, ⟨r₀, hr₀⟩, hnot⟩ := hgiven
    exact ⟨_, hh, hnot, r₀, hr₀, rfl⟩

theorem keyFor_reconcile {key : EpochKey} (hwf : Wf C log) (hkept : Kept ring)
    (hset : Settled log ring) (hh : h ∈ log.canonicalRotations)
    (hnot : ¬ Superseded log ring h) (hkey : ring.keyFor h = some key) :
    (ring.reconcile log).2.keyFor h = some key := by
  obtain ⟨r₀, hr₀, rfl⟩ := Option.map_eq_some_iff.1 hkey
  refine Option.map_eq_some_iff.2 ⟨marked log r₀, ?_, marked_key r₀⟩
  exact (reconcile_records hwf hkept hset).2 ⟨hh, hnot, r₀, hr₀, rfl⟩

theorem Settled.reconcile (hwf : Wf C log) (hkept : Kept ring)
    (hset : Settled log ring) : Settled log (ring.reconcile log).2 := by
  intro h r hr hfinal
  obtain ⟨-, -, r₀, hr₀, rfl⟩ := (reconcile_records hwf hkept hset).1 hr
  exact (marked_status hkept hset hr₀).1 hfinal

end Reconcile

end EpochKeyring

end Intranet
