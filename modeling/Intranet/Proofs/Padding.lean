import Intranet.Proofs.ForkChoice

/-!
# What capability-free entries can do to a fork

Entries that need no capability carry no weight, so no number of them makes a
branch heavier than it was. They do change which entry is a branch's tip, and
on equal weight the lower tip hash wins; so they can tip a tie. This file
says that this is all: after any such padding, the gated entries of the
canonical chain are those of a branch that already had the maximal weight
(`padding_keeps_weight`). Where only one sequence of gated entries has that
weight, the padding changes nothing that counts.
-/

namespace Intranet

namespace GovernanceLog

variable {C : Crypto} {log log' : GovernanceLog} {h : Hash}

/-- The gated entries from the root down to `h`. -/
def gatedPath (log : GovernanceLog) (h : Hash) : List Hash :=
  (log.ancestry h).filter log.gatedAt

/-- The gated entries of the canonical chain. -/
def canonicalGated (log : GovernanceLog) : List Hash :=
  log.canonicalChain.filter log.gatedAt

/-- A leaf no other leaf outweighs. -/
def Heaviest (log : GovernanceLog) (l : Hash) : Prop :=
  log.Leaf l ∧ ∀ m, log.Leaf m → log.weight m ≤ log.weight l

/-- `log'` holds everything `log` does and nothing gated besides. -/
structure Pads (log log' : GovernanceLog) : Prop where
  keeps : Extends log log'
  free : ∀ h ∈ log'.entries, h ∉ log.entries → log'.gatedAt h = false

theorem Wf.gatedPath_prefix (hwf : Wf C log) {a : Hash}
    (habove : Walk.Above log.parentOf a h) :
    log.gatedPath a <+: log.gatedPath h := by
  induction habove using Relation.ReflTransGen.head_induction_on with
  | refl => exact List.prefix_rfl
  | @head x y hxy _ ih =>
      refine ih.trans ?_
      rw [gatedPath, gatedPath, hwf.ancestry_some hxy, List.filter_append]
      exact List.prefix_append _ _

theorem Wf.exists_leaf_below (hwf : Wf C log) (hmem : h ∈ log.entries) :
    ∃ l, log.Leaf l ∧ Walk.Above log.parentOf h l := by
  obtain ⟨t, hleaf, habove, -⟩ := hwf.chainThrough_tip hmem
  exact ⟨t, hleaf, habove⟩

theorem Pads.gatedPath_eq (hpad : Pads log log') (hwf : Wf C log)
    (hwf' : Wf C log') (hmem : h ∈ log.entries) :
    log'.gatedPath h = log.gatedPath h := by
  rw [gatedPath, gatedPath, hpad.keeps.ancestry_eq hwf hwf' hmem]
  refine List.filter_congr fun a ha => hpad.keeps.gatedAt_eq ?_
  exact hwf.mem_of_above (hwf.mem_ancestry.1 ha) hmem

/-- Every entry of the padded log gets its gated ancestors from an entry of
the original one. -/
theorem Pads.exists_original (hpad : Pads log log') (hwf : Wf C log)
    (hwf' : Wf C log') {root : Hash} (hroot : log.root = some root) :
    h ∈ log'.entries → ∃ a ∈ log.entries, log'.gatedPath h = log.gatedPath a := by
  induction h using hwf'.induction with
  | hstep h ih =>
      intro hmem
      by_cases hold : h ∈ log.entries
      · exact ⟨h, hold, hpad.gatedPath_eq hwf hwf' hold⟩
      · cases hp : log'.parentOf h with
        | none =>
            -- the padded log still has the old root, and only one
            have hroot' : log'.root = some root := by
              obtain ⟨hrmem, hrpar⟩ := (hwf.root_iff root).1 hroot
              exact (hwf'.root_iff root).2 ⟨hpad.keeps.mem hrmem,
                (hpad.keeps.parentOf_eq hrmem).trans hrpar⟩
            rw [(hwf'.root_iff h).2 ⟨hmem, hp⟩, Option.some.injEq] at hroot'
            exact absurd (hroot' ▸ hwf.root_mem hroot) hold
        | some p =>
            obtain ⟨a, ha, heq⟩ := ih p hp (hwf'.parent_mem h p hp)
            refine ⟨a, ha, ?_⟩
            rw [← heq, gatedPath, gatedPath, hwf'.ancestry_some hp,
              List.filter_append, List.filter_singleton, hpad.free h hmem hold]
            exact List.append_nil _

/-- The canonical chain of the padded log has the gated entries of a heaviest
leaf of the original. -/
theorem Pads.exists_heaviest (hpad : Pads log log') (hwf : Wf C log)
    (hwf' : Wf C log') (hlen : log'.len < 2 ^ 32)
    (hfinal : log'.finalized = none) {root : Hash}
    (hroot : log.root = some root) :
    ∃ l, log.Heaviest l ∧ log'.canonicalGated = log.gatedPath l := by
  obtain ⟨root', hroot'⟩ :=
    hwf'.root_isSome (hpad.keeps.mem (hwf.root_mem hroot))
  obtain ⟨t, ht, hchain, hbest⟩ :=
    hwf'.canonicalChain_best hlen hfinal hroot'
  obtain ⟨a, ha, hta⟩ := hpad.exists_original hwf hwf' hroot ht.1
  obtain ⟨l, hl, hal⟩ := hwf.exists_leaf_below ha
  have hinit := hwf.gatedPath_prefix hal
  -- every original leaf survives in some padded one, which `t` outweighs
  have hweigh : ∀ m, log.Leaf m → log.weight m ≤ (log.gatedPath a).length := by
    intro m hm
    have hmem' := hpad.keeps.mem hm.1
    obtain ⟨m', hm', habove⟩ := hwf'.exists_leaf_below hmem'
    have hle : log'.weight m' ≤ log'.weight t := by
      have := hbest m' hm'
      rw [standing, standing, Prod.Lex.toLex_le_toLex] at this
      rcases this with hlt | ⟨heq, -⟩
      · exact hlt.le
      · exact heq.le
    calc log.weight m = (log'.gatedPath m).length := by
          rw [hpad.gatedPath_eq hwf hwf' hm.1]
          rfl
      _ ≤ (log'.gatedPath m').length :=
          (hwf'.gatedPath_prefix habove).length_le
      _ ≤ (log'.gatedPath t).length := hle
      _ = (log.gatedPath a).length := by rw [hta]
  refine ⟨l, ⟨hl, fun m hm => (hweigh m hm).trans hinit.length_le⟩, ?_⟩
  rw [canonicalGated, hchain]
  exact hta.trans (hinit.eq_of_length_le (hweigh l hl))

theorem Wf.exists_heaviest (hwf : Wf C log) (hlen : log.len < 2 ^ 32)
    (hfinal : log.finalized = none) {root : Hash}
    (hroot : log.root = some root) :
    ∃ l, log.Heaviest l ∧ log.canonicalGated = log.gatedPath l :=
  Pads.exists_heaviest ⟨Extends.refl log, fun _ hmem hnot => absurd hmem hnot⟩
    hwf hwf hlen hfinal hroot

/-- A run of capability-free inserts pads. -/
theorem pads_insertAll {es pad : List LogEntry}
    (hfree : CollisionFree C {e | e ∈ es ++ pad})
    (hpad : ∀ e ∈ pad, e.isCapabilityGated = false) :
    Pads (new.insertAll C es) ((new.insertAll C es).insertAll C pad) := by
  have hwithin : Within C {e | e ∈ es ++ pad} (new.insertAll C es) :=
    within_new.insertAll hfree fun e he => List.mem_append_left pad he
  have hmem : ∀ e ∈ pad, e ∈ {e | e ∈ es ++ pad} :=
    fun e he => List.mem_append_right es he
  refine ⟨hwithin.extends_insertAll hfree hmem, fun h hin hnot => ?_⟩
  obtain ⟨e, he⟩ := (BTreeMap.mem_iff_exists _ _).1 hin
  rcases stored_insertAll ⟨h, he⟩ with hnew | hold
  · rw [gatedAt, he]
    exact hpad e hnew
  · -- stored before, so under the hash it is stored under now
    have hkey := (hwithin.insertAll hfree hmem).wf.keyed h e he
    refine absurd ?_ hnot
    exact (BTreeMap.mem_iff_exists _ _).2
      ⟨e, hwithin.wf.getElem?_iff.2 ⟨hold, hkey⟩⟩

/-- Capability-free entries never change how many gated entries the canonical
chain holds. The gated entries it holds afterwards are those of a heaviest
leaf of the log before, so they are the same ones whenever all heaviest
leaves agree on them. -/
theorem padding_keeps_weight {es pad : List LogEntry}
    (hfree : CollisionFree C {e | e ∈ es ++ pad})
    (hpad : ∀ e ∈ pad, e.isCapabilityGated = false)
    (hlen : ((new.insertAll C es).insertAll C pad).len < 2 ^ 32) :
    ((new.insertAll C es).insertAll C pad).canonicalGated.length =
      (new.insertAll C es).canonicalGated.length ∧
    ((new.insertAll C es).root.isSome → ∃ l, (new.insertAll C es).Heaviest l ∧
      ((new.insertAll C es).insertAll C pad).canonicalGated =
        (new.insertAll C es).gatedPath l) ∧
    ((∀ l m, (new.insertAll C es).Heaviest l → (new.insertAll C es).Heaviest m →
        (new.insertAll C es).gatedPath l = (new.insertAll C es).gatedPath m) →
      ((new.insertAll C es).insertAll C pad).canonicalGated =
        (new.insertAll C es).canonicalGated) := by
  have hpads := pads_insertAll hfree hpad
  have hwithin : Within C {e | e ∈ es ++ pad} (new.insertAll C es) :=
    within_new.insertAll hfree fun e he => List.mem_append_left pad he
  have hwf := hwithin.wf
  have hwf' : Wf C ((new.insertAll C es).insertAll C pad) :=
    (hwithin.insertAll hfree fun e he => List.mem_append_right es he).wf
  have hfinal : (new.insertAll C es).finalized = none := insertAll_finalized
  have hfinal' : ((new.insertAll C es).insertAll C pad).finalized = none :=
    insertAll_finalized.trans hfinal
  have hlen₀ := hpads.keeps.len_le.trans_lt hlen
  cases hroot : (new.insertAll C es).root with
  | none =>
      -- nothing was stored, so nothing stored now is gated
      have hempty : ∀ h, h ∉ (new.insertAll C es).entries := by
        intro h hmem
        obtain ⟨root, hsome⟩ := hwf.root_isSome hmem
        rw [hroot] at hsome
        cases hsome
      have hgated' : ((new.insertAll C es).insertAll C pad).canonicalGated = [] := by
        refine List.filter_eq_nil_iff.2 fun h _ hg => ?_
        by_cases hmem : h ∈ ((new.insertAll C es).insertAll C pad).entries
        · rw [hpads.free h hmem (hempty h)] at hg
          cases hg
        · rw [gatedAt, Std.ExtTreeMap.getElem?_eq_none hmem] at hg
          cases hg
      have hgated : (new.insertAll C es).canonicalGated = [] := by
        rw [canonicalGated, canonicalChain, hroot]
        rfl
      rw [hgated', hgated]
      exact ⟨rfl, fun hsome => (by cases hsome), fun _ => rfl⟩
  | some root =>
      obtain ⟨l, hl, heq⟩ := hpads.exists_heaviest hwf hwf' hlen hfinal' hroot
      obtain ⟨m, hm, heq₀⟩ := hwf.exists_heaviest hlen₀ hfinal hroot
      have hweight : (new.insertAll C es).weight l = (new.insertAll C es).weight m :=
        le_antisymm (hm.2 l hl.1) (hl.2 m hm.1)
      rw [heq, heq₀]
      exact ⟨hweight, fun _ => ⟨l, hl, rfl⟩, fun hunique => hunique l m hl hm⟩

/-- Two admissions on top of the founding entry, of equal weight. -/
def fork : List LogEntry :=
  [Sample.genesis 0 .conservativeDefault [],
    Sample.entry 1 (some 0) 1 1 (Sample.admits 2),
    Sample.entry 2 (some 0) 2 1 (Sample.admits 3)]

/-- A self-initiated rotation on top of the first of them. -/
def rotation : LogEntry :=
  Sample.entry 3 (some 1) 3 2 (.epochRotation .selfInitiated [])

theorem padding_keeps_weight_fork :
    ((new.insertAll .sample fork).insertAll .sample
        [rotation]).canonicalGated.length =
      (new.insertAll .sample fork).canonicalGated.length :=
  (padding_keeps_weight (C := .sample)
    (collisionFree_of_nodup (by decide +kernel)) (by decide)
    (by decide +kernel)).1

/-- The rotation replaces the lower tip by a higher one and hands the tie to
the other branch. -/
theorem padding_flips_fork :
    rotation.isCapabilityGated = false ∧
      (new.insertAll .sample fork).finalized = none ∧
      (∃ hash log', (new.insertAll .sample fork).insert .sample rotation =
        .ok (hash, log') ∧
          log' = (new.insertAll .sample fork).insertAll .sample [rotation]) ∧
      (new.insertAll .sample fork).canonicalGated = [Sample.hash 1] ∧
      ((new.insertAll .sample fork).insertAll .sample
        [rotation]).canonicalGated = [Sample.hash 2] := by
  refine ⟨by decide, by decide +kernel, ?_, by decide +kernel, by decide +kernel⟩
  have hok : Run.okAnd ((new.insertAll .sample fork).insert .sample rotation)
      (fun _ => true) = true := by
    decide +kernel
  obtain ⟨⟨hash, log'⟩, hins, -⟩ := Run.okAnd_iff.1 hok
  refine ⟨hash, log', hins, ?_⟩
  simp only [insertAll, List.foldl_cons, List.foldl_nil, tryInsert, hins] at hins ⊢

end GovernanceLog

end Intranet
