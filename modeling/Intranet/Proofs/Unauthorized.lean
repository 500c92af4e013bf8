import Intranet.Proofs.ForkChoice

/-!
# What an unauthorized entry does to the network's state

`insert` checks structure, replay checks authority, and fork choice sits
between them knowing nothing of the second. An entry its ancestry does not
authorize is therefore stored, weighs in like any other, and when its branch
wins, the canonical chain no longer replays at all.

`unauthorized_insert_iff` says exactly when that does not happen: the entry
is already there, or the best of the branches it does not extend outranks
its own, and replays to the state the network had. If the entry does not
extend the canonical tip, that branch is the canonical one.
-/

namespace Intranet

namespace GovernanceLog

variable {C : Crypto} {log log' : GovernanceLog} {e : LogEntry} {h p : Hash}

/-- The entries from the root down to `h`. -/
def branch (log : GovernanceLog) (h : Hash) : List LogEntry :=
  (log.ancestry h).filterMap fun a => log.entries[a]?

/-- Replay of the entry's own ancestry accepts everything up to the entry and
refuses the entry. -/
def RefusedAt (C : Crypto) (log : GovernanceLog) (e : LogEntry) : Prop :=
  match e.parent with
  | none => ∃ err, GovernanceState.replay C [e] = .error err
  | some p => ∃ s err, GovernanceState.replay C (log.branch p) = .ok s ∧
      s.apply C e = .error err

/-- The standing the entry's branch will have. -/
def joinStanding (C : Crypto) (log : GovernanceLog) (e : LogEntry)
    (p : Hash) : ℕ ×ₗ Hashᵒᵈ :=
  toLex (log.weight p + (if e.isCapabilityGated then 1 else 0),
    OrderDual.toDual (e.hash C))

/-- The entry is stored already, or the best branch it does not extend
outranks its own and replays to `s`. -/
def Harmless (C : Crypto) (log : GovernanceLog) (e : LogEntry)
    (s : GovernanceState) : Prop :=
  e.hash C ∈ log.entries ∨
    ∃ p l, e.parent = some p ∧ log.Leaf l ∧ l ≠ p ∧
      (∀ m, log.Leaf m → m ≠ p → log.standing m ≤ log.standing l) ∧
      log.joinStanding C e p < log.standing l ∧
      GovernanceState.replay C (log.branch l) = .ok s

/-! ## The log with the new leaf -/

theorem extends_inserted (hnew : e.hash C ∉ log.entries) :
    Extends log (log.inserted C e) := by
  intro h x hx
  rw [getElem?_inserted, if_neg]
  · exact hx
  · intro heq
    subst heq
    exact hnew ((BTreeMap.mem_iff_exists _ _).2 ⟨x, hx⟩)

theorem getElem?_inserted_self :
    (log.inserted C e).entries[e.hash C]? = some e := by
  rw [getElem?_inserted, if_pos rfl]

/-- The new entry is a leaf, and its parent no longer is. -/
theorem Wf.leaf_inserted (hwf : Wf C log) (hnew : e.hash C ∉ log.entries)
    (hp : e.parent = some p) (hpmem : p ∈ log.entries) {l : Hash} :
    (log.inserted C e).Leaf l ↔
      l = e.hash C ∨ (log.Leaf l ∧ l ≠ p) := by
  constructor
  · intro hgiven
    obtain ⟨hmem, hkids⟩ := hgiven
    rcases mem_inserted.1 hmem with rfl | hold
    · exact Or.inl rfl
    · refine Or.inr ⟨⟨hold, fun h hh => ?_⟩, ?_⟩
      · have hne : e.hash C ≠ h := by
          intro heq
          subst heq
          exact hnew (mem_of_parentOf hh)
        exact hkids h (by rw [parentOf_inserted, if_neg hne, hh])
      · intro heq
        subst heq
        exact hkids (e.hash C) (by rw [parentOf_inserted, if_pos rfl, hp])
  · intro hcase
    rcases hcase with rfl | ⟨⟨hmem, hkids⟩, hne⟩
    · refine ⟨mem_inserted.2 (.inl rfl), fun h hh => ?_⟩
      rw [parentOf_inserted] at hh
      split at hh
      · rw [hp, Option.some.injEq] at hh
        exact hnew (hh ▸ hpmem)
      · exact hnew (hwf.parent_mem h _ hh)
    · refine ⟨mem_inserted.2 (.inr hmem), fun h hh => ?_⟩
      rw [parentOf_inserted] at hh
      split at hh
      · rw [hp, Option.some.injEq] at hh
        exact hne hh.symm
      · exact hkids h hh

theorem Extends.branch_eq (hext : Extends log log') (hwf : Wf C log)
    (hwf' : Wf C log') (hmem : h ∈ log.entries) :
    log'.branch h = log.branch h := by
  rw [branch, branch, hext.ancestry_eq hwf hwf' hmem]
  refine List.filterMap_congr fun a ha => hext.getElem?_eq ?_
  exact hwf.mem_of_above (hwf.mem_ancestry.1 ha) hmem

theorem Extends.standing_eq (hext : Extends log log') (hwf : Wf C log)
    (hwf' : Wf C log') (hmem : h ∈ log.entries) :
    log'.standing h = log.standing h := by
  rw [standing, standing, weight, weight, hext.ancestry_eq hwf hwf' hmem]
  congr 3
  refine List.filter_congr fun a ha => hext.gatedAt_eq ?_
  exact hwf.mem_of_above (hwf.mem_ancestry.1 ha) hmem

section NewLeaf

variable (hwf : Wf C log) (hwf' : Wf C (log.inserted C e))
  (hnew : e.hash C ∉ log.entries) (hp : e.parent = some p)
  (hpmem : p ∈ log.entries)
include hwf hwf' hnew hp hpmem

theorem ancestry_inserted :
    (log.inserted C e).ancestry (e.hash C) = log.ancestry p ++ [e.hash C] := by
  have hlink : (log.inserted C e).parentOf (e.hash C) = some p := by
    rw [parentOf_inserted, if_pos rfl, hp]
  rw [hwf'.ancestry_some hlink,
    (extends_inserted hnew).ancestry_eq hwf hwf' hpmem]

theorem branch_inserted :
    (log.inserted C e).branch (e.hash C) = log.branch p ++ [e] := by
  have hold := (extends_inserted hnew).branch_eq hwf hwf' hpmem
  rw [branch, (extends_inserted hnew).ancestry_eq hwf hwf' hpmem] at hold
  rw [branch, ancestry_inserted hwf hwf' hnew hp hpmem, List.filterMap_append,
    hold]
  congr 1
  simp only [List.filterMap_cons, getElem?_inserted_self, List.filterMap_nil]

theorem standing_inserted :
    (log.inserted C e).standing (e.hash C) = log.joinStanding C e p := by
  have hold := (extends_inserted hnew).standing_eq hwf hwf' hpmem
  have hweight : (log.inserted C e).weight p = log.weight p :=
    congrArg (fun k => (ofLex k).1) hold
  rw [standing, joinStanding, ← hweight, weight, weight,
    ancestry_inserted hwf hwf' hnew hp hpmem,
    (extends_inserted hnew).ancestry_eq hwf hwf' hpmem, List.filter_append,
    List.length_append, List.filter_singleton, gatedAt, getElem?_inserted_self,
    Option.any_some]
  congr 3
  cases e.isCapabilityGated <;> rfl

end NewLeaf

/-! ## The state after the insert -/

theorem replayCanonical_eq {t : Hash}
    (hchain : log.canonicalChain = log.ancestry t) :
    log.replayCanonical C = GovernanceState.replay C (log.branch t) := by
  rw [replayCanonical, hchain, branch]

theorem Wf.branch_ne_nil (hwf : Wf C log) (hmem : h ∈ log.entries) :
    log.branch h ≠ [] := by
  obtain ⟨e, he⟩ := (BTreeMap.mem_iff_exists _ _).1 hmem
  have hin : e ∈ log.branch h :=
    List.mem_filterMap.2 ⟨h, hwf.mem_ancestry.2 (.refl h), he⟩
  exact List.ne_nil_of_mem hin

section NewTip

variable {s : GovernanceState} {t : Hash} (hwf : Wf C log)
  (hwf' : Wf C (log.inserted C e)) (hnew : e.hash C ∉ log.entries)
  (hp : e.parent = some p) (hpmem : p ∈ log.entries)
include hwf hwf' hnew hp hpmem

/-- Replay stops at the refused entry. -/
theorem replay_inserted_ne (hrefused : log.RefusedAt C e) :
    GovernanceState.replay C ((log.inserted C e).branch (e.hash C)) ≠ .ok s := by
  rw [branch_inserted hwf hwf' hnew hp hpmem, ne_eq,
    GovernanceState.replay_snoc (hwf.branch_ne_nil hpmem)]
  intro hgiven
  obtain ⟨sp, hsp, happ⟩ := hgiven
  rw [RefusedAt, hp] at hrefused
  obtain ⟨sp', err, hsp', herr⟩ := hrefused
  rw [hsp] at hsp'
  cases hsp'
  rw [happ] at herr
  cases herr

/-- Where the new branch wins, no old branch outranks it. -/
theorem not_harmless_of_new_best
    (hbest : ∀ l, (log.inserted C e).Leaf l →
      (log.inserted C e).standing l ≤ (log.inserted C e).standing (e.hash C)) :
    ¬ log.Harmless C e s := by
  intro hcase
  rcases hcase with hin | ⟨q, l, hq, hl, hlq, -, hlt, -⟩
  · exact hnew hin
  · rw [hp] at hq
    cases hq
    have hle := hbest l ((hwf.leaf_inserted hnew hp hpmem).2 (.inr ⟨hl, hlq⟩))
    rw [standing_inserted hwf hwf' hnew hp hpmem,
      (extends_inserted hnew).standing_eq hwf hwf' hl.1] at hle
    exact absurd hlt (not_lt.2 hle)

/-- Where an old branch wins, it is the best of those left. -/
theorem harmless_iff_of_old_best (htleaf : log.Leaf t) (htp : t ≠ p)
    (hbest : ∀ l, (log.inserted C e).Leaf l →
      (log.inserted C e).standing l ≤ (log.inserted C e).standing t) :
    GovernanceState.replay C (log.branch t) = .ok s ↔ log.Harmless C e s := by
  have hold := (extends_inserted hnew).standing_eq hwf hwf' htleaf.1
  have hmax : ∀ m, log.Leaf m → m ≠ p → log.standing m ≤ log.standing t := by
    intro m hm hmp
    have hle := hbest m ((hwf.leaf_inserted hnew hp hpmem).2 (.inr ⟨hm, hmp⟩))
    rwa [(extends_inserted hnew).standing_eq hwf hwf' hm.1, hold] at hle
  have hlt : log.joinStanding C e p < log.standing t := by
    have hle := hbest (e.hash C)
      ((hwf.leaf_inserted hnew hp hpmem).2 (.inl rfl))
    rw [hold] at hle
    rw [← standing_inserted hwf hwf' hnew hp hpmem]
    refine lt_of_le_of_ne hle fun heq => hnew ?_
    have hsame : e.hash C = t :=
      congrArg (fun k => OrderDual.ofDual (ofLex k).2) heq
    exact hsame ▸ htleaf.1
  constructor
  · intro hok
    exact Or.inr ⟨p, t, hp, htleaf, htp, hmax, hlt, hok⟩
  · intro hcase
    rcases hcase with hin | ⟨q, l, hq, hl, hlq, hlmax, -, hok⟩
    · exact absurd hin hnew
    · rw [hp] at hq
      cases hq
      have heq : l = t := standing_injective
        (le_antisymm (hmax l hl hlq) (hlmax t htleaf htp))
      rw [← heq]
      exact hok

end NewTip

/-- An unauthorized entry leaves the state of a log built by inserts as it
was exactly when it is harmless. -/
theorem unauthorized_insert_iff {es : List LogEntry} {hash : Hash}
    {s : GovernanceState} (hfree : CollisionFree C {x | x ∈ e :: es})
    (hlen : (new.insertAll C es).len + 1 < 2 ^ 32)
    (hs : (new.insertAll C es).replayCanonical C = .ok s)
    (hins : (new.insertAll C es).insert C e = .ok (hash, log'))
    (hrefused : (new.insertAll C es).RefusedAt C e) :
    log'.replayCanonical C = .ok s ↔ (new.insertAll C es).Harmless C e s := by
  have hwithin : Within C {x | x ∈ e :: es} (new.insertAll C es) :=
    within_new.insertAll hfree fun x hx => List.mem_cons_of_mem e hx
  have hwf' := (hwithin.insert hfree List.mem_cons_self hins).wf
  have hfinal : (new.insertAll C es).finalized = none := insertAll_finalized
  have hmem := hwithin.mem
  have hwf := hwithin.wf
  generalize new.insertAll C es = log at *
  obtain ⟨hacc, rfl, rfl⟩ := insert_ok_iff.1 hins
  by_cases hstored : e.hash C ∈ log.entries
  · -- a repeated insert
    obtain ⟨x, hx⟩ := (BTreeMap.mem_iff_exists _ _).1 hstored
    have hxe : x = e := hfree (hmem x ⟨_, hx⟩) List.mem_cons_self (hwf.keyed _ _ hx)
    rw [insert_stored hwf (hxe ▸ hx)]
    exact iff_of_true hs (Or.inl hstored)
  · obtain ⟨root, hroot⟩ : ∃ root, log.root = some root := by
      cases hroot : log.root with
      | none =>
          rw [replayCanonical, canonicalChain, hroot] at hs
          cases hs
      | some root => exact ⟨root, rfl⟩
    obtain ⟨p, hp⟩ : ∃ p, e.parent = some p := by
      cases hp : e.parent with
      | none =>
          have hfirst := (hacc.founding hp).2 root hroot
          exact absurd (hfirst ▸ hwf.root_mem hroot) hstored
      | some p => exact ⟨p, rfl⟩
    have hpmem := hacc.parent_mem hp
    have hext := extends_inserted hstored
    have hlen' : (log.inserted C e).len < 2 ^ 32 := by
      rw [len_inserted hstored]
      exact hlen
    obtain ⟨root', hroot'⟩ := hwf'.root_isSome (hext.mem hpmem)
    obtain ⟨t, ht, hchain, hbest⟩ := hwf'.canonicalChain_best hlen'
      (inserted_finalized.trans hfinal) hroot'
    rw [replayCanonical_eq hchain]
    rcases (hwf.leaf_inserted hstored hp hpmem).1 ht with rfl | ⟨htleaf, htp⟩
    · exact iff_of_false (replay_inserted_ne hwf hwf' hstored hp hpmem hrefused)
        (not_harmless_of_new_best hwf hwf' hstored hp hpmem hbest)
    · rw [hext.branch_eq hwf hwf' htleaf.1]
      exact harmless_iff_of_old_best hwf hwf' hstored hp hpmem htleaf htp hbest

/-! ## An outsider appends -/

/-- Identity 9, in no group, admits itself on top of `parent`. -/
def intrusion (parent : ℕ) : LogEntry :=
  Sample.entry 9 (some parent) 9 9 (Sample.admits 9)

/-- The log stores the entry, and replay of its ancestry refuses it. -/
def storesRefused (log : GovernanceLog) (parent : ℕ) : Bool :=
  Run.okAnd (log.insert .sample (intrusion parent)) (fun _ => true) &&
    Run.okAnd (GovernanceState.replay .sample (log.branch (Sample.hash parent)))
      fun s => !Run.okAnd (s.apply .sample (intrusion parent)) fun _ => true

theorem storesRefused_spec {parent : ℕ}
    (h : log.storesRefused parent = true) :
    (∃ hash log', log.insert .sample (intrusion parent) = .ok (hash, log')) ∧
      log.RefusedAt .sample (intrusion parent) := by
  obtain ⟨hins, hrefused⟩ := Bool.and_eq_true_iff.1 h
  obtain ⟨⟨hash, log'⟩, hins, -⟩ := Run.okAnd_iff.1 hins
  obtain ⟨s, hs, hno⟩ := Run.okAnd_iff.1 hrefused
  refine ⟨⟨hash, log', hins⟩, ?_⟩
  cases happ : s.apply .sample (intrusion parent) with
  | error err => exact ⟨s, err, hs, happ⟩
  | ok s' =>
      rw [happ] at hno
      cases hno

/-- On a side branch of lower weight the intrusion changes nothing. -/
theorem unauthorized_insert_iff_outranked :
    ∃ s, (new.insertAll .sample shortLog).replayCanonical .sample = .ok s ∧
      (new.insertAll .sample shortLog).RefusedAt .sample (intrusion 0) ∧
      (new.insertAll .sample shortLog).Harmless .sample (intrusion 0) s := by
  have hcheck : (new.insertAll .sample shortLog).storesRefused 0 = true := by
    decide +kernel
  have hreplay : Run.okAnd ((new.insertAll .sample shortLog).replayCanonical
      .sample) (fun s => decide (((new.insertAll .sample shortLog).tryInsert
        .sample (intrusion 0)).replayCanonical .sample = .ok s)) = true := by
    decide +kernel
  obtain ⟨⟨hash, log', hins⟩, hrefused⟩ := storesRefused_spec hcheck
  obtain ⟨s, hs, hafter⟩ := Run.okAnd_iff.1 hreplay
  have hafter := of_decide_eq_true hafter
  simp only [tryInsert, hins] at hafter
  refine ⟨s, hs, hrefused, ?_⟩
  exact (unauthorized_insert_iff (collisionFree_of_nodup (by decide +kernel))
    (by decide +kernel) hs hins hrefused).1 hafter

/-- On the canonical tip it wins the fork, and the log no longer replays. -/
theorem unauthorized_insert_breaks_replay :
    ∃ s hash log', (new.insertAll .sample shortLog).replayCanonical .sample =
        .ok s ∧
      (new.insertAll .sample shortLog).insert .sample (intrusion 2) =
        .ok (hash, log') ∧
      (new.insertAll .sample shortLog).RefusedAt .sample (intrusion 2) ∧
      log'.replayCanonical .sample ≠ .ok s := by
  have hcheck : (new.insertAll .sample shortLog).storesRefused 2 = true := by
    decide +kernel
  have hreplay : Run.okAnd ((new.insertAll .sample shortLog).replayCanonical
      .sample) (fun s => decide (((new.insertAll .sample shortLog).tryInsert
        .sample (intrusion 2)).replayCanonical .sample ≠ .ok s)) = true := by
    decide +kernel
  obtain ⟨⟨hash, log', hins⟩, hrefused⟩ := storesRefused_spec hcheck
  obtain ⟨s, hs, hafter⟩ := Run.okAnd_iff.1 hreplay
  have hafter := of_decide_eq_true hafter
  simp only [tryInsert, hins] at hafter
  exact ⟨s, hash, log', hs, hins, hrefused, hafter⟩

end GovernanceLog

end Intranet
