import Intranet.Proofs.ForkChoice
import Intranet.Proofs.Time

/-!
# Finality binds

Fork choice starts from the finalized entry, and `advance_finality` only ever
moves that entry along the canonical chain it just computed. So whatever the
clock says and whatever branches arrive in between, the finalized entry only
moves to a descendant of itself, and what lies above it stays canonical
(`finality_binding`).

What the two thresholds guarantee is less symmetric. The loop tests each
entry of the chain by itself, keeps the last that passes, and finality then
covers everything above that one. The depth test is monotone along the chain;
the age test reads self-attested timestamps and is not, so it vouches for the
finalized entry alone (`finality_thresholds`).
-/

namespace Intranet

namespace GovernanceLog

variable {C : Crypto} {S : Set LogEntry} {log log' : GovernanceLog}
  {f h : Hash} {now : Timestamp}

/-! ## Calls on one log -/

/-- A call of the two mutating methods. -/
inductive Call where
  | insert (entry : LogEntry)
  | reconcile (now : Timestamp)

/-- The log after a call; a refused insert leaves it as it was. -/
def call (C : Crypto) (log : GovernanceLog) : Call → GovernanceLog
  | .insert entry => log.tryInsert C entry
  | .reconcile now => (log.reconcile C now).2

/-- The log after a sequence of calls on an empty one. -/
def run (C : Crypto) (calls : List Call) : GovernanceLog :=
  calls.foldl (call C) new

/-! ## Finality as a position in the tree -/

theorem isFinal_iff : log.isFinal h = true ↔
    ∃ f, log.finalized = some f ∧ h ∈ log.ancestry f := by
  unfold isFinal
  cases log.finalized with
  | none => simp
  | some f =>
      simp only [Walk.meets_iff_mem_collect, Option.some.injEq,
        exists_eq_left']
      rfl

/-- Along an ancestry, the earlier lies above the later. -/
theorem Wf.ancestry_pairwise (hwf : Wf C log) (t : Hash) :
    (log.ancestry t).Pairwise fun a b => Walk.Above log.parentOf a b := by
  induction t using hwf.induction with
  | hstep t ih =>
      cases hp : log.parentOf t with
      | none =>
          rw [ancestry_none hp]
          exact List.pairwise_singleton _ _
      | some p =>
          rw [hwf.ancestry_some hp]
          refine List.pairwise_append.2 ⟨ih p hp, List.pairwise_singleton _ _, ?_⟩
          intro a ha b hb
          rw [List.mem_singleton.1 hb]
          exact (hwf.mem_ancestry.1 ha).trans
            (Walk.above_iff.2 (.inr ⟨p, hp, .refl p⟩))

theorem Wf.ancestry_nodup (hwf : Wf C log) (t : Hash) :
    (log.ancestry t).Nodup := by
  obtain ⟨rank, hfall, hbound⟩ := hwf.ranked
  exact Walk.nodup_collect hfall (Nat.lt_succ_of_le (hbound t))

/-- The canonical chain is the ancestry of a leaf below the finalized
entry. -/
theorem Wf.canonicalChain_tip (hwf : Wf C log) (hmem : h ∈ log.entries) :
    ∃ t, log.Leaf t ∧ log.canonicalChain = log.ancestry t ∧
      ∀ f, log.finalized = some f → Walk.Above log.parentOf f t := by
  obtain ⟨root, hroot⟩ := hwf.root_isSome hmem
  have hstart : log.finalized.getD root ∈ log.entries := by
    cases hf : log.finalized with
    | none => exact hwf.root_mem hroot
    | some f => exact hwf.finalized_mem f hf
  obtain ⟨t, hleaf, habove, hchain⟩ := hwf.chainThrough_tip hstart
  refine ⟨t, hleaf, by rw [canonicalChain, hroot]; exact hchain, ?_⟩
  intro f hf
  rw [hf] at habove
  exact habove

theorem reconcile_canonical :
    (log.reconcile C now).1.canonical = log.canonicalChain := by
  unfold reconcile canonicalChain
  cases log.root <;> rfl

/-! ## One move of the finalized entry -/

theorem newlyFinal_some {params : FinalityParams} {chain : List Hash}
    {index i : ℕ} {found : Option ℕ}
    (h : log.newlyFinal params now index chain found = some i) :
    found = some i ∨ ∃ front hash later, chain = front ++ hash :: later ∧
      i = index + front.length ∧
      log.meetsFinality params now hash later = true := by
  induction chain generalizing index found with
  | nil => exact Or.inl h
  | cons hash later ih =>
      rw [newlyFinal] at h
      rcases ih h with hfound | ⟨front, hash', later', rfl, rfl, hmeets⟩
      · split at hfound
        · next hmeets =>
            cases hfound
            exact Or.inr ⟨[], hash, later, rfl, rfl, hmeets⟩
        · exact Or.inl hfound
      · refine Or.inr ⟨hash :: front, hash', later', rfl, ?_, hmeets⟩
        rw [List.length_cons]
        omega

/-- Finality stays, or moves to an entry of the canonical chain that passes
both tests and lies after the old one. -/
theorem advanceFinality_cases (canonical : List Hash) :
    log.advanceFinality C canonical now = log ∨
      ∃ state front hash later, log.replayCanonical C = .ok state ∧
        canonical = front ++ hash :: later ∧
        log.meetsFinality state.policy.finality now hash later = true ∧
        (∀ f, log.finalized = some f → f ∈ canonical → f ∈ front) ∧
        log.advanceFinality C canonical now =
          { log with finalized := some hash } := by
  unfold advanceFinality
  cases hstate : log.replayCanonical C with
  | error err => exact Or.inl rfl
  | ok state =>
      dsimp only
      cases hcand : log.newlyFinal state.policy.finality now 0 canonical none with
      | none =>
          left
          split <;> first | rfl | contradiction
      | some candidate =>
          rcases newlyFinal_some hcand with
            hnone | ⟨front, hash, later, rfl, hi, hmeets⟩
          · cases hnone
          · have hget : (front ++ hash :: later)[candidate]? = some hash := by
              rw [hi]
              simp
            have hzero : candidate = front.length := by omega
            cases halready : log.finalized.bind fun x =>
                (front ++ hash :: later).findIdx? fun entry => decide (entry = x) with
            | none =>
                dsimp only
                right
                refine ⟨state, front, hash, later, rfl, rfl, hmeets, ?_,
                  by rw [hget]⟩
                intro f hf hmem
                rw [hf, Option.bind_some, List.findIdx?_eq_none_iff] at halready
                exact absurd (halready f hmem) (by simp)
            | some current =>
                dsimp only
                split
                · exact Or.inl rfl
                · next hlt =>
                    right
                    refine ⟨state, front, hash, later, rfl, rfl, hmeets, ?_,
                      by rw [hget]⟩
                    intro f hf _
                    rw [hf, Option.bind_some, List.findIdx?_eq_some_iff_getElem]
                      at halready
                    obtain ⟨hbound, heq, -⟩ := halready
                    have hfront : current < front.length := by omega
                    rw [List.getElem_append_left hfront] at heq
                    rw [← of_decide_eq_true heq]
                    exact List.getElem_mem hfront

theorem reconcile_snd : (log.reconcile C now).2 =
    if log.root.isSome then log.advanceFinality C log.canonicalChain now
    else log := by
  unfold reconcile canonicalChain
  cases log.root <;> rfl

/-- What a reconciliation can do to the log. -/
theorem reconcile_cases (C : Crypto) (log : GovernanceLog) (now : Timestamp) :
    (log.reconcile C now).2 = log ∨
      ∃ state front hash later, log.replayCanonical C = .ok state ∧
        log.canonicalChain = front ++ hash :: later ∧
        log.meetsFinality state.policy.finality now hash later = true ∧
        (∀ f, log.finalized = some f → f ∈ log.canonicalChain → f ∈ front) ∧
        (log.reconcile C now).2 = { log with finalized := some hash } := by
  rw [reconcile_snd]
  split
  · exact advanceFinality_cases log.canonicalChain
  · exact Or.inl rfl

theorem Wf.mem_of_canonical (hwf : Wf C log) (hh : h ∈ log.canonicalChain) :
    h ∈ log.entries := by
  cases hroot : log.root with
  | none =>
      rw [canonicalChain, hroot] at hh
      cases hh
  | some root =>
      obtain ⟨t, hleaf, hchain, -⟩ := hwf.canonicalChain_tip (hwf.root_mem hroot)
      rw [hchain] at hh
      exact hwf.mem_of_above (hwf.mem_ancestry.1 hh) hleaf.1

/-- Only the finalized field depends on where finality stands. -/
theorem Wf.with_finalized (hwf : Wf C log) (hmem : h ∈ log.entries) :
    Wf C { log with finalized := some h } :=
  ⟨hwf.keyed, hwf.signed, hwf.founding, hwf.root_iff, hwf.parent_mem,
    hwf.child_iff, hwf.inhabited, hwf.ranked, fun f hf => by
      cases hf
      exact hmem⟩

/-! ## Runs -/

/-- `log'` holds everything `log` does, and its finalized entry is at or
below the old one. -/
structure Advances (log log' : GovernanceLog) : Prop where
  keeps : Extends log log'
  final : ∀ f, log.finalized = some f →
    ∃ f', log'.finalized = some f' ∧ Walk.Above log'.parentOf f f'

theorem Advances.refl (log : GovernanceLog) : Advances log log :=
  ⟨Extends.refl log, fun f hf => ⟨f, hf, .refl f⟩⟩

theorem Advances.trans {a b c : GovernanceLog} (hb : Wf C b) (hc : Wf C c)
    (hab : Advances a b) (hbc : Advances b c) : Advances a c := by
  refine ⟨hab.keeps.trans hbc.keeps, fun f hf => ?_⟩
  obtain ⟨f', hf', habove⟩ := hab.final f hf
  obtain ⟨f'', hf'', habove'⟩ := hbc.final f' hf'
  refine ⟨f'', hf'', .trans ?_ habove'⟩
  exact (hbc.keeps.above_iff hb hc (hb.finalized_mem f' hf')).2 habove

theorem Within.tryInsert_advances {e : LogEntry} (hlog : Within C S log)
    (hfree : CollisionFree C S) (he : e ∈ S) :
    Advances log (log.tryInsert C e) :=
  ⟨hlog.extends_tryInsert hfree he, fun f hf =>
    ⟨f, tryInsert_finalized.trans hf, .refl f⟩⟩

theorem Wf.reconcile_advances (hwf : Wf C log) (now : Timestamp) :
    Wf C (log.reconcile C now).2 ∧ Advances log (log.reconcile C now).2 := by
  rcases reconcile_cases C log now with
    heq | ⟨state, front, hash, later, -, hchain, -, hafter, heq⟩
  · rw [heq]
    exact ⟨hwf, Advances.refl log⟩
  · have hhash : hash ∈ log.entries := hwf.mem_of_canonical (by simp [hchain])
    rw [heq]
    refine ⟨hwf.with_finalized hhash, Extends.refl log, fun f hf => ?_⟩
    refine ⟨hash, rfl, ?_⟩
    -- the old entry is on the chain, so it was passed before the new one
    obtain ⟨t, -, htip, hbelow⟩ := hwf.canonicalChain_tip hhash
    have hfmem : f ∈ log.canonicalChain := by
      rw [htip]
      exact hwf.mem_ancestry.2 (hbelow f hf)
    have hpair := hwf.ancestry_pairwise t
    rw [← htip, hchain] at hpair
    exact (List.pairwise_append.1 hpair).2.2 f (hafter f hf hfmem) hash
      List.mem_cons_self

theorem Within.call {c : Call} (hlog : Within C S log)
    (hfree : CollisionFree C S) (hc : ∀ e, c = .insert e → e ∈ S) :
    Within C S (log.call C c) ∧ Advances log (log.call C c) := by
  cases c with
  | insert e =>
      have he := hc e rfl
      exact ⟨hlog.tryInsert hfree he, hlog.tryInsert_advances hfree he⟩
  | reconcile now =>
      obtain ⟨hwf, hadv⟩ := hlog.wf.reconcile_advances now
      refine ⟨⟨hwf, fun e he => hlog.mem e ?_⟩, hadv⟩
      obtain ⟨h, hh⟩ := he
      refine ⟨h, ?_⟩
      rcases reconcile_cases C log now with
        heq | ⟨_, _, _, _, -, -, -, -, heq⟩
      · rwa [GovernanceLog.call, heq] at hh
      · rwa [GovernanceLog.call, heq] at hh

theorem Within.calls (hlog : Within C S log) (hfree : CollisionFree C S)
    (calls : List Call) (hcalls : ∀ e, .insert e ∈ calls → e ∈ S) :
    Within C S (calls.foldl (GovernanceLog.call C) log) ∧
      Advances log (calls.foldl (GovernanceLog.call C) log) := by
  induction calls generalizing log with
  | nil => exact ⟨hlog, Advances.refl log⟩
  | cons c calls ih =>
      obtain ⟨hstep, hadv⟩ := hlog.call hfree
        fun e he => hcalls e (he ▸ List.mem_cons_self)
      obtain ⟨hrest, hadv'⟩ := ih hstep
        fun e he => hcalls e (List.mem_cons_of_mem c he)
      exact ⟨hrest, hadv.trans hstep.wf hrest.wf hadv'⟩

theorem run_append (pre post : List Call) :
    run C (pre ++ post) = post.foldl (call C) (run C pre) := by
  rw [run, List.foldl_append]
  rfl

/-- What a run reaches. -/
theorem within_run {calls : List Call} (hfree : CollisionFree C S)
    (hcalls : ∀ e, .insert e ∈ calls → e ∈ S) : Within C S (run C calls) :=
  (within_new.calls hfree _ hcalls).1

/-! ## What a reconciliation reports -/

theorem Wf.mem_canonicalChain_of_final (hwf : Wf C log)
    (hfinal : log.isFinal h = true) : h ∈ log.canonicalChain := by
  obtain ⟨f, hf, hmem⟩ := isFinal_iff.1 hfinal
  obtain ⟨t, -, hchain, hbelow⟩ :=
    hwf.canonicalChain_tip (hwf.finalized_mem f hf)
  rw [hchain]
  exact hwf.mem_ancestry.2 ((hwf.mem_ancestry.1 hmem).trans (hbelow f hf))

theorem Advances.isFinal (hadv : Advances log log') (hwf : Wf C log)
    (hwf' : Wf C log') (hfinal : log.isFinal h = true) :
    log'.isFinal h = true := by
  obtain ⟨f, hf, hmem⟩ := isFinal_iff.1 hfinal
  obtain ⟨f', hf', habove⟩ := hadv.final f hf
  refine isFinal_iff.2 ⟨f', hf', hwf'.mem_ancestry.2 (.trans ?_ habove)⟩
  have hfmem := hwf.finalized_mem f hf
  exact (hadv.keeps.above_iff hwf hwf' hfmem).2 (hwf.mem_ancestry.1 hmem)

theorem Wf.canonicalChain_nodup (hwf : Wf C log) :
    log.canonicalChain.Nodup := by
  cases hroot : log.root with
  | none =>
      rw [canonicalChain, hroot]
      exact List.nodup_nil
  | some root =>
      obtain ⟨t, -, hchain, -⟩ := hwf.canonicalChain_tip (hwf.root_mem hroot)
      rw [hchain]
      exact hwf.ancestry_nodup t

theorem voidedBy_hashes (canonical : List Hash) :
    (log.voidedBy canonical).map VoidedEntry.hash =
      log.entries.keys.filter fun h => !canonical.contains h := by
  rw [voidedBy, List.map_map, ← Std.ExtTreeMap.map_fst_toList_eq_keys,
    List.filter_map]
  rfl

theorem reconcile_voided (hroot : log.root.isSome) :
    (log.reconcile C now).1.voided.map VoidedEntry.hash =
      log.entries.keys.filter fun h => !log.canonicalChain.contains h := by
  have hentries : (log.reconcile C now).2.entries = log.entries := by
    rcases reconcile_cases C log now with
      heq | ⟨_, _, _, _, -, -, -, -, heq⟩ <;> rw [heq]
  have hvoided : (log.reconcile C now).1.voided =
      (log.reconcile C now).2.voidedBy log.canonicalChain := by
    obtain ⟨root, hroot⟩ := Option.isSome_iff_exists.1 hroot
    unfold reconcile canonicalChain
    rw [hroot]
  rw [hvoided, voidedBy_hashes, hentries]

/-- A reconciliation accounts for every stored entry once. -/
theorem Wf.reconcile_partition (hwf : Wf C log) :
    ((log.reconcile C now).1.canonical ++
      (log.reconcile C now).1.voided.map VoidedEntry.hash).Nodup ∧
    ∀ h, h ∈ (log.reconcile C now).1.canonical ++
        (log.reconcile C now).1.voided.map VoidedEntry.hash ↔
      h ∈ log.entries := by
  rw [reconcile_canonical]
  cases hroot : log.root with
  | none =>
      have hvoided : (log.reconcile C now).1.voided = [] := by
        rw [reconcile, hroot]
      rw [hvoided, canonicalChain, hroot]
      refine ⟨List.nodup_nil, fun h =>
        iff_of_false List.not_mem_nil fun hmem => ?_⟩
      obtain ⟨root, hsome⟩ := hwf.root_isSome hmem
      rw [hroot] at hsome
      cases hsome
  | some root =>
      rw [reconcile_voided (by rw [hroot]; rfl)]
      constructor
      · refine List.Nodup.append hwf.canonicalChain_nodup
          (log.entries.nodup_keys.sublist List.filter_sublist) ?_
        intro h hcanon hvoid
        have := (List.mem_filter.1 hvoid).2
        simp [hcanon] at this
      · intro h
        rw [List.mem_append, List.mem_filter, Std.ExtTreeMap.mem_keys]
        constructor
        · intro hcase
          rcases hcase with hcanon | ⟨hmem, -⟩
          · exact hwf.mem_of_canonical hcanon
          · exact hmem
        · intro hmem
          by_cases hcanon : h ∈ log.canonicalChain
          · exact Or.inl hcanon
          · exact Or.inr ⟨hmem, by simpa using hcanon⟩

/-- Finality is binding and monotone. After any calls, and then any more with
any clock readings: what was final is final still and canonical, in the chain
and in every reconciliation; the finalized entry has only moved to a
descendant of itself; and a reconciliation reports each stored entry exactly
once, as canonical or as voided. -/
theorem finality_binding {pre post : List Call}
    (hfree : CollisionFree C {e | .insert e ∈ pre ++ post}) :
    (∀ h, (run C pre).isFinal h = true →
      (run C (pre ++ post)).isFinal h = true) ∧
    (∀ f, (run C pre).finalized = some f → ∃ f',
      (run C (pre ++ post)).finalized = some f' ∧
        f ∈ (run C (pre ++ post)).ancestry f') ∧
    (∀ h, (run C pre).isFinal h = true →
      h ∈ (run C (pre ++ post)).canonicalChain ∧
      ∀ now, h ∈ ((run C (pre ++ post)).reconcile C now).1.canonical) ∧
    ∀ now,
      (((run C (pre ++ post)).reconcile C now).1.canonical ++
        ((run C (pre ++ post)).reconcile C now).1.voided.map
          VoidedEntry.hash).Nodup ∧
      ∀ h, h ∈ ((run C (pre ++ post)).reconcile C now).1.canonical ++
          ((run C (pre ++ post)).reconcile C now).1.voided.map
            VoidedEntry.hash ↔
        h ∈ (run C (pre ++ post)).entries := by
  have hpre : Within C {e | .insert e ∈ pre ++ post} (run C pre) :=
    within_run hfree fun e he => List.mem_append_left post he
  obtain ⟨hpost, hadv⟩ := hpre.calls hfree post
    fun e he => List.mem_append_right pre he
  rw [← run_append] at hpost hadv
  refine ⟨fun h hh => hadv.isFinal hpre.wf hpost.wf hh, fun f hf => ?_,
    fun h hh => ?_, fun now => hpost.wf.reconcile_partition⟩
  · obtain ⟨f', hf', habove⟩ := hadv.final f hf
    exact ⟨f', hf', hpost.wf.mem_ancestry.2 habove⟩
  · have hcanon := hpost.wf.mem_canonicalChain_of_final
      (hadv.isFinal hpre.wf hpost.wf hh)
    exact ⟨hcanon, fun now => reconcile_canonical ▸ hcanon⟩

/-- Final at one gated entry on top and ten milliseconds of age. -/
def quickPolicy : NetworkPolicy :=
  { NetworkPolicy.conservativeDefault with finality := ⟨1, 10⟩ }

/-- A chain of admissions; the first is dated a second ahead. -/
def datedChain : List LogEntry :=
  [Sample.genesis 0 quickPolicy [],
    Sample.entry 1 (some 0) 1000 1 (Sample.admits 2),
    Sample.entry 2 (some 1) 2 1 (Sample.admits 3),
    Sample.entry 3 (some 2) 3 1 (Sample.admits 4)]

/-- A longer branch from the same founding entry. -/
def rivalChain : List LogEntry :=
  [Sample.entry 5 (some 0) 5 1 (Sample.admits 5),
    Sample.entry 6 (some 5) 6 1 (Sample.admits 6),
    Sample.entry 7 (some 6) 7 1 (Sample.admits 7),
    Sample.entry 8 (some 7) 8 1 (Sample.admits 8)]

theorem collisionFree_dated :
    CollisionFree .sample {e | e ∈ datedChain ++ rivalChain} :=
  collisionFree_of_nodup (by decide +kernel)

/-- The rival branch comes too late, and an earlier clock changes nothing. -/
theorem finality_binding_rival :
    (run .sample (datedChain.map .insert ++
        [.reconcile ⟨100⟩])).isFinal (Sample.hash 2) = true ∧
      (run .sample ((datedChain.map .insert ++ [.reconcile ⟨100⟩]) ++
        (rivalChain.map .insert ++ [.reconcile ⟨0⟩]))).isFinal
          (Sample.hash 2) = true := by
  have hfinal : (run .sample (datedChain.map .insert ++
      [.reconcile ⟨100⟩])).isFinal (Sample.hash 2) = true := by
    decide +kernel
  refine ⟨hfinal, (finality_binding (collisionFree_dated.mono ?_)).1 _ hfinal⟩
  intro e he
  simpa using he

/-! ## What the thresholds guarantee -/

theorem meetsFinality_iff {params : FinalityParams} {later : List Hash} :
    log.meetsFinality params now h later = true ↔
      ∃ entry, log.entries[h]? = some entry ∧
        params.k ≤ UInt32.ofNat (later.filter log.gatedAt).length ∧
        params.tMillis ≤ now.millisSince entry.timestamp := by
  unfold meetsFinality
  cases log.entries[h]? with
  | none => simp
  | some entry => simp [FinalityParams.isFinal]

/-- The `u32` count of a list never exceeds its length. -/
theorem le_length_of_le_ofNat {k : UInt32} {n : ℕ} (h : k ≤ UInt32.ofNat n) :
    k.toNat ≤ n := by
  rw [UInt32.le_iff_toNat_le, UInt32.toNat_ofNat'] at h
  exact h.trans (Nat.mod_le _ _)

/-- On the canonical chain, what lies above an entry comes before it. -/
theorem Wf.mem_front (hwf : Wf C log) {front later : List Hash} {hash : Hash}
    (hchain : log.canonicalChain = front ++ hash :: later)
    (habove : h ∈ log.ancestry hash) : h = hash ∨ h ∈ front := by
  have hhash : hash ∈ log.canonicalChain := by simp [hchain]
  obtain ⟨t, -, htip, -⟩ := hwf.canonicalChain_tip (hwf.mem_of_canonical hhash)
  have hup := hwf.mem_ancestry.1 habove
  have hmem : h ∈ log.canonicalChain := by
    rw [htip] at hhash ⊢
    exact hwf.mem_ancestry.2 (hup.trans (hwf.mem_ancestry.1 hhash))
  rw [hchain, List.mem_append, List.mem_cons] at hmem
  rcases hmem with hfront | heq | hlater
  · exact Or.inr hfront
  · exact Or.inl heq
  · -- after it on the chain means below it, and it cannot be both
    have hpair := hwf.ancestry_pairwise t
    rw [← htip, hchain] at hpair
    have hafter := (List.pairwise_append.1 hpair).2.1
    have hdown := (List.pairwise_cons.1 hafter).1 h hlater
    obtain ⟨rank, hfall, -⟩ := hwf.ranked
    exact Or.inl (Walk.Above.antisymm hfall hup hdown)

/-- An entry that becomes final is followed on the canonical chain by at
least `k` gated entries. It becomes final with the finalized entry at or
below it, and that one is at least `t_millis` old, provided its age fits into
an `i64`. -/
theorem finality_thresholds {calls : List Call}
    (hfree : CollisionFree C {e | .insert e ∈ calls})
    (hbefore : (run C calls).isFinal h = false)
    (hafter : ((run C calls).reconcile C now).2.isFinal h = true) :
    ∃ state, (run C calls).replayCanonical C = .ok state ∧
      (∃ front later, (run C calls).canonicalChain = front ++ h :: later ∧
        state.policy.finality.k.toNat ≤
          (later.filter (run C calls).gatedAt).length) ∧
      ∃ f entry, ((run C calls).reconcile C now).2.finalized = some f ∧
        h ∈ (run C calls).ancestry f ∧
        (run C calls).entries[f]? = some entry ∧
        (-2 ^ 63 ≤ now.millis.toInt - entry.timestamp.millis.toInt ∧
            now.millis.toInt - entry.timestamp.millis.toInt < 2 ^ 63 →
          state.policy.finality.tMillis.toInt ≤
            now.millis.toInt - entry.timestamp.millis.toInt) := by
  have hwf : Wf C (run C calls) := (within_run hfree fun e he => he).wf
  generalize run C calls = log at *
  rcases reconcile_cases C log now with
    heq | ⟨state, front, hash, later, hstate, hchain, hmeets, -, heq⟩
  · rw [heq, hbefore] at hafter
    cases hafter
  · rw [heq] at hafter ⊢
    obtain ⟨f, hf, hup⟩ := isFinal_iff.1 hafter
    cases hf
    change h ∈ log.ancestry hash at hup
    obtain ⟨entry, hentry, hdepth, hage⟩ := meetsFinality_iff.1 hmeets
    refine ⟨state, hstate, ?_, hash, entry, rfl, hup, hentry, fun hfit => ?_⟩
    · have hk := le_length_of_le_ofNat hdepth
      rcases hwf.mem_front hchain hup with rfl | hfront
      · exact ⟨front, later, hchain, hk⟩
      · obtain ⟨a, b, rfl⟩ := List.append_of_mem hfront
        refine ⟨a, b ++ hash :: later, by simp [hchain], hk.trans ?_⟩
        refine (List.Sublist.filter _ ?_).length_le
        exact (List.sublist_cons_self hash later).trans
          (List.sublist_append_right b _)
    · rw [Int64.le_iff_toInt_le, Timestamp.millisSince_toInt hfit] at hage
      exact hage

theorem collisionFree_datedCalls :
    CollisionFree .sample {e | Call.insert e ∈ datedChain.map Call.insert} := by
  refine collisionFree_dated.mono fun e he => ?_
  have : e ∈ datedChain := by simpa using he
  exact List.mem_append_left _ this

theorem finality_thresholds_dated :
    ∃ state, (run .sample (datedChain.map .insert)).replayCanonical .sample =
        .ok state ∧
      ∃ front later, (run .sample (datedChain.map .insert)).canonicalChain =
          front ++ Sample.hash 2 :: later ∧
        state.policy.finality.k.toNat ≤ (later.filter
          (run .sample (datedChain.map .insert)).gatedAt).length := by
  have hbefore : (run .sample (datedChain.map .insert)).isFinal
      (Sample.hash 2) = false := by
    decide +kernel
  have hafter : ((run .sample (datedChain.map .insert)).reconcile .sample
      ⟨100⟩).2.isFinal (Sample.hash 2) = true := by
    decide +kernel
  obtain ⟨state, hstate, hdepth, -⟩ :=
    finality_thresholds collisionFree_datedCalls hbefore hafter
  exact ⟨state, hstate, hdepth⟩

/-- The entry dated ahead becomes final with the one after it, nine hundred
milliseconds before its own timestamp. -/
theorem future_entry_becomes_final :
    (run .sample (datedChain.map .insert)).isFinal (Sample.hash 1) = false ∧
      ((run .sample (datedChain.map .insert)).reconcile .sample
        ⟨100⟩).2.isFinal (Sample.hash 1) = true ∧
      ∃ state entry, (run .sample (datedChain.map .insert)).replayCanonical
          .sample = .ok state ∧
        (run .sample (datedChain.map .insert)).entries[Sample.hash 1]? =
          some entry ∧
        ¬ state.policy.finality.tMillis.toInt ≤
          (100 : Int64).toInt - entry.timestamp.millis.toInt := by
  refine ⟨by decide +kernel, by decide +kernel, ?_⟩
  have hcheck : Run.okAnd ((run .sample (datedChain.map
      .insert)).replayCanonical .sample) (fun state =>
        (run .sample (datedChain.map .insert)).entries[Sample.hash 1]?.any
          fun entry => !decide (state.policy.finality.tMillis.toInt ≤
            (100 : Int64).toInt - entry.timestamp.millis.toInt)) = true := by
    decide +kernel
  obtain ⟨state, hstate, hentry⟩ := Run.okAnd_iff.1 hcheck
  obtain ⟨entry, hentry, hyoung⟩ := (Option.any_eq_true _ _).1 hentry
  exact ⟨state, entry, hstate, hentry, by simpa using hyoung⟩

end GovernanceLog

end Intranet
