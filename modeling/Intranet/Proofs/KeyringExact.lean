import Intranet.Proofs.Retention

/-!
# Reconciliation is exact

In a run that records each rotation on top of the ones it holds, everything
held lies above the current rotation. A reconciliation cuts what is held down
to the canonical chain, which keeps that, and where it cuts off the current
rotation it adopts the last one left. So after it the held rotations are
canonical, the current one is the last of them, and a second reconciliation
finds nothing to do (`reconciliation_exact`).
-/

namespace Intranet

open GovernanceLog

namespace EpochKeyring

variable {C : Crypto} {log : GovernanceLog} {ring : EpochKeyring} {c h : Hash}

/-! ## The current rotation -/

/-- The current rotation is held, and everything held lies above it. -/
structure Headed (log : GovernanceLog) (ring : EpochKeyring) : Prop where
  held : ∀ c, ring.canonical = some c → c ∈ ring.records
  above : ∀ h ∈ ring.records, h ∈ log.entries ∧
    ∃ c, ring.canonical = some c ∧ Walk.Above log.parentOf h c

theorem headed_new : Headed log new where
  held c hc := by cases hc
  above h hh := by simp [new] at hh

theorem canonical_reconcile : (ring.reconcile log).2.canonical =
    (adopt log.canonicalRotations (markedRing log ring)).canonical := by
  rw [reconcile, prune]
  exact pruned_canonical _ _

theorem canonical_markedRing : (markedRing log ring).canonical =
    ring.canonical.filter fun c =>
      c ∉ ring.records.keys.filter fun hash =>
        !log.canonicalRotations.contains hash :=
  voided_canonical _ _

/-- A current rotation on the canonical chain stays. -/
theorem canonical_kept (hc : ring.canonical = some c)
    (hcanon : c ∈ log.canonicalRotations) :
    (ring.reconcile log).2.canonical = some c := by
  have hmarked : (markedRing log ring).canonical = some c := by
    rw [canonical_markedRing, hc, Option.filter_some, if_pos]
    exact decide_eq_true fun hdoomed => (mem_doomed.1 hdoomed).2 hcanon
  rw [canonical_reconcile, adopt, hmarked]
  exact hmarked

/-- Without one, the last held rotation of the chain is adopted. -/
theorem canonical_adopted (hhead : Headed log ring)
    (hlost : ∀ c, ring.canonical = some c → c ∉ log.canonicalRotations) :
    (ring.reconcile log).2.canonical = (log.canonicalRotations.filter fun hash =>
      (markedRing log ring).records.contains hash).getLast? := by
  have hmarked : (markedRing log ring).canonical = none := by
    rw [canonical_markedRing, Option.filter_eq_none_iff]
    intro c hc
    have hdoomed := mem_doomed.2 ⟨hhead.held c hc, hlost c hc⟩
    simpa using hdoomed
  rw [canonical_reconcile, adopt, if_pos (by rw [hmarked]; rfl),
    List.getLast?_filter]

/-- Nothing held supersedes the last held rotation. -/
theorem not_superseded_last (hwf : Wf C log)
    (hlast : ∀ n ∈ ring.records, n ∈ log.canonicalRotations →
      Walk.Above log.parentOf n c) : ¬ Superseded log ring c := by
  intro hsup
  obtain ⟨n, hn, hearly, -⟩ := hsup
  obtain ⟨-, -, hup, hne⟩ := hwf.earlier_iff.1
    (earlier_canonicalRotations_iff.1 hearly).1
  exact hne (hwf.above_antisymm hup (hlast n hn hearly.mem_right))

theorem Headed.reconcile (hwf : Wf C log) (hkept : Kept ring)
    (hset : Settled log ring) (hhead : Headed log ring) :
    Headed log (ring.reconcile log).2 := by
  by_cases hstay : ∃ c, ring.canonical = some c ∧ c ∈ log.canonicalRotations
  · obtain ⟨c, hc, hcanon⟩ := hstay
    have hcurrent := canonical_kept hc hcanon
    have habove : ∀ n ∈ ring.records, Walk.Above log.parentOf n c := by
      intro n hn
      obtain ⟨-, c', hc', hup⟩ := hhead.above n hn
      rw [hc] at hc'
      cases hc'
      exact hup
    constructor
    · intro c' hc'
      rw [hcurrent] at hc'
      cases hc'
      exact (mem_reconcile hwf hkept hset).2 ⟨hcanon, hhead.held c hc,
        not_superseded_last hwf fun n hn _ => habove n hn⟩
    · intro h hh
      obtain ⟨-, hmem, -⟩ := (mem_reconcile hwf hkept hset).1 hh
      exact ⟨(hhead.above h hmem).1, c, hcurrent, habove h hmem⟩
  · have hcurrent := canonical_adopted hhead fun c hc hcanon =>
      hstay ⟨c, hc, hcanon⟩
    have hheld : ∀ x : Hash, (markedRing log ring).records.contains x = true ↔
        x ∈ log.canonicalRotations ∧ x ∈ ring.records := by
      intro x
      rw [Std.ExtTreeMap.contains_iff_mem, mem_markedRing]
    have hlast : ∀ c, (ring.reconcile log).2.canonical = some c →
        ∀ n ∈ ring.records, n ∈ log.canonicalRotations →
          Walk.Above log.parentOf n c := by
      intro c hc n hn hcanon
      rw [hcurrent] at hc
      rcases Earlier.of_getLast? hc hcanon ((hheld n).2 ⟨hcanon, hn⟩) with
        rfl | hearly
      · exact .refl _
      · exact (hwf.earlier_iff.1 (earlier_canonicalRotations_iff.1 hearly).1).2.2.1
    constructor
    · intro c hc
      have hmem := List.mem_of_getLast? (hcurrent ▸ hc)
      obtain ⟨hcanon, hheldc⟩ := List.mem_filter.1 hmem
      exact (mem_reconcile hwf hkept hset).2 ⟨hcanon, ((hheld c).1 hheldc).2,
        not_superseded_last hwf (hlast c hc)⟩
    · intro h hh
      obtain ⟨hcanon, hmem, -⟩ := (mem_reconcile hwf hkept hset).1 hh
      refine ⟨(hhead.above h hmem).1, ?_⟩
      cases hc : (ring.reconcile log).2.canonical with
      | none =>
          -- the chain holds `h`, so its last held rotation exists
          rw [hcurrent, List.getLast?_eq_none_iff] at hc
          have hin := List.mem_filter.2 ⟨hcanon, (hheld h).2 ⟨hcanon, hmem⟩⟩
          rw [hc] at hin
          cases hin
      | some c => exact ⟨c, rfl, hlast c hc h hmem hcanon⟩

/-! ## A second reconciliation -/

theorem prune_nothing {ws : List (Hash × Hash)} {pass : Pass}
    (h : ∀ w ∈ ws, ¬ (MarkedFinal pass.1 w.2 ∧ w.1 ∈ pass.1.records)) :
    ws.foldl pruneOne pass = pass := by
  induction ws with
  | nil => rfl
  | cons w ws ih =>
      obtain ⟨a, b⟩ := w
      rw [List.foldl_cons]
      rcases pruneOne_cases pass a b with ⟨hb, ha, -⟩ | ⟨-, heq⟩
      · exact absurd ⟨hb, ha⟩ (h (a, b) List.mem_cons_self)
      · rw [heq]
        exact ih fun w hw => h w (List.mem_cons_of_mem _ hw)

theorem markFinal_nothing {pass : Pass}
    (h : ∀ (x : Hash) r, pass.1.records[x]? = some r →
      becomesFinal log r = false) : markFinal log pass = pass := by
  have hrecords : (markFinal log pass).1.records = pass.1.records := by
    apply Std.ExtTreeMap.ext_getElem?
    intro x
    rw [markFinal_records]
    cases hx : pass.1.records[x]? with
    | none => rfl
    | some r =>
        rw [Option.map_some, marked, h x r hx]
        rfl
  have hnone : (pass.1.records.toList.map Prod.snd).filter
      (becomesFinal log) = [] := by
    rw [List.filter_eq_nil_iff]
    intro r hr
    obtain ⟨⟨x, r'⟩, hmem, rfl⟩ := List.mem_map.1 hr
    rw [h x r' (Std.ExtTreeMap.mem_toList_iff_getElem?_eq_some.1 hmem)]
    exact Bool.false_ne_true
  refine Prod.ext (EpochKeyring.ext hrecords rfl rfl) ?_
  simp only [markFinal, hnone, List.map_nil, List.append_nil]

/-- Nothing to void, nothing to mark, nothing to prune. -/
theorem reconcile_nothing (hhead : Headed log ring)
    (hcanon : ∀ h ∈ ring.records, h ∈ log.canonicalRotations)
    (hmark : ∀ (h : Hash) r, ring.records[h]? = some r →
      becomesFinal log r = false)
    (hprune : ∀ a b, Earlier log.canonicalRotations a b → a ∈ ring.records →
      ¬ MarkedFinal ring b) :
    ring.reconcile log = (.unchanged, ring) := by
  have hvoid : voidDoomed log.canonicalRotations (ring, .unchanged) =
      (ring, .unchanged) := by
    rw [voidDoomed, List.filter_eq_nil_iff.2]
    · rfl
    · intro h hh
      simp [hcanon h (Std.ExtTreeMap.mem_keys.1 hh)]
  have hadopt : adopt log.canonicalRotations ring = ring := by
    unfold adopt
    split
    · next hnone =>
        refine EpochKeyring.ext rfl rfl ?_
        rw [Option.isNone_iff_eq_none] at hnone
        rw [hnone, List.find?_eq_none]
        intro h _ hheld
        obtain ⟨-, c, hc, -⟩ :=
          hhead.above h (Std.ExtTreeMap.contains_iff_mem.1 hheld)
        rw [hnone] at hc
        cases hc
    · rfl
  have hmarked : markFinal log (ring, .unchanged) = (ring, .unchanged) :=
    markFinal_nothing hmark
  simp only [reconcile, hvoid, hmarked, hadopt, prune]
  rw [prune_nothing]
  intro w hw hgiven
  exact hprune w.1 w.2 (Earlier.filter_iff.1 (earlier_of_neighbour hw)).1
    hgiven.2 hgiven.1

/-- A reconciliation leaves no held rotation with a held final one after
it. -/
theorem not_earlier_final (hwf : Wf C log) (hkept : Kept ring)
    (hset : Settled log ring) {a b : Hash}
    (ha : a ∈ (ring.reconcile log).2.records)
    (hb : b ∈ (ring.reconcile log).2.records)
    (hearly : Earlier log.canonicalRotations a b) :
    log.isFinal b = false := by
  rw [← Bool.not_eq_true]
  intro hfinal
  exact ((mem_reconcile hwf hkept hset).1 ha).2.2
    ⟨b, ((mem_reconcile hwf hkept hset).1 hb).2.1, hearly, hfinal⟩

/-- Which held rotations are marked as final after a reconciliation. -/
theorem status_reconcile {r : EpochRecord} (hwf : Wf C log) (hkept : Kept ring)
    (hset : Settled log ring)
    (hr : (ring.reconcile log).2.records[h]? = some r) :
    r.status = .final ↔ log.isFinal h = true := by
  obtain ⟨-, -, r₀, hr₀, rfl⟩ := (reconcile_records hwf hkept hset).1 hr
  exact marked_status hkept hset hr₀

theorem reconcile_twice (hwf : Wf C log) (hkept : Kept ring)
    (hset : Settled log ring) (hhead : Headed log ring) :
    (ring.reconcile log).2.reconcile log =
      (.unchanged, (ring.reconcile log).2) := by
  refine reconcile_nothing (hhead.reconcile hwf hkept hset) ?_ ?_ ?_
  · intro h hh
    exact ((mem_reconcile hwf hkept hset).1 hh).1
  · intro h r hr
    have hkey := (hkept.reconcile log).keyed h r hr
    have hstatus := status_reconcile hwf hkept hset hr
    unfold becomesFinal
    rw [hkey]
    cases hs : r.status with
    | tentative =>
        rw [hs] at hstatus
        cases hf : log.isFinal h with
        | false => rfl
        | true =>
            have himpossible := hstatus.2 hf
            cases himpossible
    | final => rfl
  · intro a b hearly ha hgiven
    obtain ⟨r, hr, hfinal⟩ := hgiven
    have hb := (BTreeMap.mem_iff_exists _ _).2 ⟨r, hr⟩
    have hnot := not_earlier_final hwf hkept hset ha hb hearly
    rw [(status_reconcile hwf hkept hset hr).1 hfinal] at hnot
    cases hnot

/-! ## What becomes of a key -/

theorem pruned_voided (ws : List (Hash × Hash)) (pass : Pass) :
    (ws.foldl pruneOne pass).2.voided = pass.2.voided := by
  induction ws generalizing pass with
  | nil => rfl
  | cons w ws ih =>
      obtain ⟨a, b⟩ := w
      rw [List.foldl_cons, ih]
      rcases pruneOne_cases pass a b with ⟨-, -, heq⟩ | ⟨-, heq⟩
      · rw [heq]
      · rw [heq]

theorem mem_voided : h ∈ (ring.reconcile log).1.voided ↔
    h ∈ ring.records ∧ h ∉ log.canonicalRotations := by
  have hreport : (ring.reconcile log).1.voided =
      (voidDoomed log.canonicalRotations (ring, .unchanged)).2.voided :=
    pruned_voided _ _
  rw [hreport, voidDoomed, voided_report]
  exact mem_doomed

/-- The last held final rotation of the chain is kept. -/
theorem exists_final_kept {n : Hash} (hwf : Wf C log) (hkept : Kept ring)
    (hset : Settled log ring) (hn : n ∈ ring.records)
    (hearly : Earlier log.canonicalRotations h n)
    (hfinal : log.isFinal n = true) :
    ∃ m ∈ (ring.reconcile log).2.records,
      Earlier log.canonicalRotations h m ∧ log.isFinal m = true := by
  let final : Hash → Bool := fun x =>
    ring.records.contains x && log.isFinal x
  have hfinaln : final n = true := by
    rw [Bool.and_eq_true]
    exact ⟨Std.ExtTreeMap.contains_iff_mem.2 hn, hfinal⟩
  have hin := List.mem_filter.2 ⟨hearly.mem_right, hfinaln⟩
  obtain ⟨m, hm⟩ := Option.isSome_iff_exists.1
    (List.getLast?_isSome.2 (List.ne_nil_of_mem hin))
  obtain ⟨hcanon, hfinalm⟩ := List.mem_filter.1 (List.mem_of_getLast? hm)
  rw [Bool.and_eq_true] at hfinalm
  refine ⟨m, (mem_reconcile hwf hkept hset).2
    ⟨hcanon, Std.ExtTreeMap.contains_iff_mem.1 hfinalm.1, ?_⟩, ?_, hfinalm.2⟩
  · -- a later final one would have been the last
    intro hsup
    obtain ⟨n', hn', hearly', hfinal'⟩ := hsup
    have hfinaln' : final n' = true := by
      rw [Bool.and_eq_true]
      exact ⟨Std.ExtTreeMap.contains_iff_mem.2 hn', hfinal'⟩
    have hup := (hwf.earlier_iff.1
      (earlier_canonicalRotations_iff.1 hearly').1).2.2
    rcases Earlier.of_getLast? hm hearly'.mem_right hfinaln' with rfl | hback
    · exact hup.2 rfl
    · have hdown := (hwf.earlier_iff.1
        (earlier_canonicalRotations_iff.1 hback).1).2.2.1
      exact hup.2 (hwf.above_antisymm hup.1 hdown)
  · rcases Earlier.of_getLast? hm hearly.mem_right hfinaln with rfl | hnm
    · exact hearly
    · obtain ⟨hh, -, hup, hne⟩ := hwf.earlier_iff.1
        (earlier_canonicalRotations_iff.1 hearly).1
      obtain ⟨-, hm', hup', -⟩ := hwf.earlier_iff.1
        (earlier_canonicalRotations_iff.1 hnm).1
      refine earlier_canonicalRotations_iff.2 ⟨hwf.earlier_iff.2
        ⟨hh, hm', hup.trans hup', ?_⟩, hearly.mem_left, hcanon⟩
      rintro rfl
      exact hne (hwf.above_antisymm hup hup')

theorem keyFor_isSome : (ring.keyFor h).isSome ↔ h ∈ ring.records := by
  rw [keyFor, Option.isSome_map]
  exact Std.ExtTreeMap.mem_iff_isSome_getElem?.symm

/-! ## The current key -/

theorem current_iff {key : EpochKey} (hkept : Kept ring)
    (hhead : Headed log ring) : ring.current = some (h, key) ↔
      ring.canonical = some h ∧ ring.keyFor h = some key := by
  unfold current keyFor
  cases hc : ring.canonical with
  | none => simp
  | some c =>
      obtain ⟨r, hr⟩ := (BTreeMap.mem_iff_exists _ _).1 (hhead.held c hc)
      have hkey := hkept.keyed c r hr
      simp only [Option.bind_eq_bind, Option.bind_some, hr, Option.pure_def,
        Option.some.injEq, Prod.mk.injEq, hkey]
      constructor
      · intro hgiven
        obtain ⟨rfl, rfl⟩ := hgiven
        exact ⟨rfl, by rw [hr]; rfl⟩
      · intro hgiven
        obtain ⟨rfl, hkey'⟩ := hgiven
        rw [hr] at hkey'
        cases hkey'
        exact ⟨rfl, rfl⟩

theorem current_isSome (hkept : Kept ring) (hhead : Headed log ring) :
    ring.current.isSome ↔ ∃ h, h ∈ ring.records := by
  rw [Option.isSome_iff_exists]
  constructor
  · intro hgiven
    obtain ⟨⟨h, key⟩, hcur⟩ := hgiven
    exact ⟨h, hhead.held h ((current_iff hkept hhead).1 hcur).1⟩
  · intro hgiven
    obtain ⟨h, hh⟩ := hgiven
    obtain ⟨-, c, hc, -⟩ := hhead.above h hh
    obtain ⟨key, hkey⟩ := Option.isSome_iff_exists.1
      (keyFor_isSome.2 (hhead.held c hc))
    exact ⟨(c, key), (current_iff hkept hhead).2 ⟨hc, hkey⟩⟩

/-- Where everything held is canonical, the current rotation is the last. -/
theorem current_last {key : EpochKey} (hwf : Wf C log) (hkept : Kept ring)
    (hhead : Headed log ring)
    (hcanon : ∀ x ∈ ring.records, x ∈ log.canonicalRotations)
    (hcur : ring.current = some (h, key)) :
    ring.keyFor h = some key ∧ h ∈ ring.records ∧ ∀ h' ∈ ring.records,
      h' = h ∨ Earlier log.canonicalRotations h' h := by
  obtain ⟨hc, hkey⟩ := (current_iff hkept hhead).1 hcur
  have hheld := hhead.held h hc
  refine ⟨hkey, hheld, fun h' hh' => ?_⟩
  by_cases heq : h' = h
  · exact Or.inl heq
  · obtain ⟨-, c, hc', hup⟩ := hhead.above h' hh'
    have hsame : c = h := Option.some.inj (hc'.symm.trans hc)
    have hmem := (mem_canonicalRotations.1 (hcanon h' hh')).1
    have hlate := (mem_canonicalRotations.1 (hcanon h hheld)).1
    exact Or.inr (earlier_canonicalRotations_iff.2
      ⟨hwf.earlier_iff.2 ⟨hmem, hlate, hsame ▸ hup, heq⟩, hcanon h' hh',
        hcanon h hheld⟩)

end EpochKeyring

namespace RingCall

variable {C : Crypto} {S : Set LogEntry} {calls : List RingCall}
  {s : GovernanceLog × EpochKeyring}

/-! ## Orderly runs -/

/-- Keys that name, one after the other, rotations later on the canonical
chain than everything held. -/
def LaterThanHeld (s : GovernanceLog × EpochKeyring)
    (keys : List (Hash × EpochKey)) : Prop :=
  (∀ k ∈ keys, k.1 ∈ s.1.canonicalRotations ∧
    ∀ h ∈ s.2.records, Earlier s.1.canonicalRotations h k.1) ∧
  keys.Pairwise fun a b => Earlier s.1.canonicalRotations a.1 b.1

/-- Every call that records keys records them on top of what is held. -/
def Orderly (C : Crypto) (calls : List RingCall) : Prop :=
  ∀ (i : ℕ) c, calls[i]? = some c →
    LaterThanHeld (run C (calls.take i)) c.delivered

theorem headed_record {log : GovernanceLog} {ring : EpochKeyring}
    (hwf : Wf C log) {k : Hash × EpochKey} (epoch : UInt64)
    (hlater : LaterThanHeld (log, ring) [k]) (hhead : ring.Headed log) :
    (ring.record k.1 epoch k.2).Headed log := by
  obtain ⟨hcanon, hheld⟩ := hlater.1 k List.mem_cons_self
  constructor
  · intro c hc
    cases hc
    exact (BTreeMap.mem_insert_iff _ _ _ _).2 (Or.inl rfl)
  · intro h hh
    rcases (BTreeMap.mem_insert_iff _ _ _ _).1 hh with rfl | hh
    · exact ⟨rotation_mem hwf hcanon, _, rfl, .refl _⟩
    · exact ⟨(hhead.above h hh).1, k.1, rfl, (hwf.earlier_iff.1
        (earlier_canonicalRotations_iff.1 (hheld h hh)).1).2.2.1⟩

theorem headed_delivered {log : GovernanceLog} (hwf : Wf C log)
    (keys : List ((Hash × EpochKey) × ℕ)) (ring : EpochKeyring)
    (hlater : LaterThanHeld (log, ring) (keys.map Prod.fst))
    (hhead : ring.Headed log) :
    (keys.foldl (fun ring d => ring.record d.1.1 (UInt64.ofNat d.2) d.1.2)
      ring).Headed log := by
  induction keys generalizing ring with
  | nil => exact hhead
  | cons d keys ih =>
      obtain ⟨hall, hpair⟩ := hlater
      rw [List.map_cons] at hall hpair
      obtain ⟨hfirst, hrest⟩ := List.pairwise_cons.1 hpair
      refine ih _ ⟨fun k hk => ?_, hrest⟩ (headed_record hwf _ ⟨?_, ?_⟩ hhead)
      · obtain ⟨hcanon, hheld⟩ := hall k (List.mem_cons_of_mem _ hk)
        refine ⟨hcanon, fun h hh => ?_⟩
        rcases (BTreeMap.mem_insert_iff _ _ _ _).1 hh with rfl | hh
        · exact hfirst k hk
        · exact hheld h hh
      · intro k hk
        rw [List.mem_singleton.1 hk]
        exact hall d.1 List.mem_cons_self
      · exact List.pairwise_singleton _ _

theorem headed_step (hs : Sound C S calls s) (hfree : CollisionFree C S)
    (c : RingCall) (hc : ∀ e, c = .log (.insert e) → e ∈ S)
    (hlater : LaterThanHeld s c.delivered) (hhead : s.2.Headed s.1) :
    (step C s c).2.2.Headed (step C s c).2.1 := by
  obtain ⟨hwithin, hadv⟩ := hs.advances hfree c hc
  have hwf := hs.within.wf
  cases c with
  | log call =>
      refine ⟨hhead.held, fun h hh => ?_⟩
      obtain ⟨hmem, c, hcur, hup⟩ := hhead.above h hh
      have hcmem := (hhead.above c (hhead.held c hcur)).1
      exact ⟨hadv.keeps.mem hmem, c, hcur,
        (above_of_advances hadv hwf hwithin.wf hcmem).2 hup⟩
  | record ref epoch key => exact headed_record (k := (ref, key)) hwf epoch hlater hhead
  | acceptDelivered keys =>
      cases keys with
      | nil => exact hhead
      | cons k keys =>
          refine headed_delivered hwf (k :: keys).zipIdx s.2 ?_ hhead
          rw [List.zipIdx_map_fst]
          exact hlater
  | reconcile => exact hhead.reconcile hwf hs.kept hs.settled

theorem Orderly.front {front back : List RingCall}
    (horderly : Orderly C (front ++ back)) : Orderly C front := by
  intro i c hi
  obtain ⟨hlt, -⟩ := List.getElem?_eq_some_iff.1 hi
  have hone := horderly i c (by rw [List.getElem?_append_left hlt, hi])
  rwa [List.take_append_of_le_length hlt.le] at hone

theorem headed_run (hfree : CollisionFree C (inserted calls))
    (horderly : Orderly C calls) :
    (run C calls).2.Headed (run C calls).1 := by
  suffices hall : ∀ pre, pre <+: calls → (run C pre).2.Headed (run C pre).1 from
    hall calls List.prefix_rfl
  intro pre
  induction pre using List.reverseRecOn with
  | nil => exact fun _ => EpochKeyring.headed_new
  | append_singleton pre c ih =>
      intro hpre
      have hpre' := (List.prefix_append pre [c]).trans hpre
      obtain ⟨hget, htake⟩ := take_of_prefix hpre
      have hlater := horderly pre.length c hget
      rw [htake] at hlater
      rw [run_snoc]
      exact headed_step (sound_run hfree (inserted_mono hpre')) hfree c
        (fun e he => inserted_mono hpre (inserted_snoc he)) hlater (ih hpre')

/-- A reconciliation voided `h`, and nothing has recorded it since. -/
def VoidedSince (C : Crypto) (calls : List RingCall) (h : Hash) : Prop :=
  ∃ front back, calls = front ++ .reconcile :: back ∧
    h ∈ ((run C front).2.reconcile (run C front).1).1.voided ∧
    ∀ c ∈ back, ∀ d ∈ c.delivered, d.1 ≠ h

theorem VoidedSince.snoc {h : Hash} (hvoid : VoidedSince C calls h)
    {c : RingCall} (hc : ∀ d ∈ c.delivered, d.1 ≠ h) :
    VoidedSince C (calls ++ [c]) h := by
  obtain ⟨front, back, rfl, hmem, hback⟩ := hvoid
  refine ⟨front, back ++ [c], by simp, hmem, fun x hx => ?_⟩
  rcases List.mem_append.1 hx with hx | hx
  · exact hback x hx
  · rw [List.mem_singleton.1 hx]
    exact hc

/-- Where a recorded key is: held, voided, or superseded by a held final
one. -/
def Accounted (C : Crypto) (calls : List RingCall)
    (s : GovernanceLog × EpochKeyring) (h : Hash) : Prop :=
  h ∈ s.2.records ∨ VoidedSince C calls h ∨
    ∃ h' ∈ s.2.records, Earlier s.1.canonicalRotations h h' ∧
      s.1.isFinal h' = true

theorem accounted_step (hs : Sound C S calls (run C calls))
    (hfree : CollisionFree C S) (c : RingCall)
    (hc : ∀ e, c = .log (.insert e) → e ∈ S) {h : Hash}
    (hold : (lastKey calls h).isSome → Accounted C calls (run C calls) h)
    (hnamed : (lastKey (calls ++ [c]) h).isSome) :
    Accounted C (calls ++ [c]) (run C (calls ++ [c])) h := by
  obtain ⟨hwithin, hadv⟩ := hs.advances hfree c hc
  rw [run_snoc]
  by_cases hrec : c = .reconcile
  · subst hrec
    rw [lastKey_reconcile] at hnamed
    have hwf := hs.within.wf
    rcases hold hnamed with hheld | hvoid | ⟨h', hh', hearly, hfinal⟩
    · by_cases hcanon : h ∈ (run C calls).1.canonicalRotations
      · by_cases hsup :
            EpochKeyring.Superseded (run C calls).1 (run C calls).2 h
        · obtain ⟨n, hn, hearly, hfinal⟩ := hsup
          exact Or.inr (Or.inr (EpochKeyring.exists_final_kept hwf hs.kept
            hs.settled hn hearly hfinal))
        · exact Or.inl ((EpochKeyring.mem_reconcile hwf hs.kept hs.settled).2
            ⟨hcanon, hheld, hsup⟩)
      · exact Or.inr (Or.inl ⟨calls, [], rfl,
          EpochKeyring.mem_voided.2 ⟨hheld, hcanon⟩, by simp⟩)
    · exact Or.inr (Or.inl (hvoid.snoc (by simp [delivered])))
    · exact Or.inr (Or.inr (EpochKeyring.exists_final_kept hwf hs.kept
        hs.settled hh' hearly hfinal))
  · have hkeep : ∀ x ∈ (run C calls).2.records,
        x ∈ (step C (run C calls) c).2.2.records := by
      intro x hx
      rw [← EpochKeyring.keyFor_isSome] at hx ⊢
      rw [step_keyFor _ c hrec]
      cases (c.delivered.filter fun d => decide (d.1 = x)).getLast? with
      | none => exact hx
      | some d => rfl
    rw [lastKey_snoc] at hnamed
    cases hlast : (c.delivered.filter fun d => decide (d.1 = h)).getLast? with
    | some d =>
        left
        rw [← EpochKeyring.keyFor_isSome, step_keyFor _ c hrec, hlast]
        rfl
    | none =>
        rw [hlast] at hnamed
        have hother : ∀ d ∈ c.delivered, d.1 ≠ h := by
          rw [List.getLast?_eq_none_iff, List.filter_eq_nil_iff] at hlast
          intro d hd heq
          exact hlast d hd (decide_eq_true heq)
        rcases hold hnamed with hheld | hvoid | ⟨h', hh', hearly, hfinal⟩
        · exact Or.inl (hkeep h hheld)
        · exact Or.inr (Or.inl (hvoid.snoc hother))
        · obtain ⟨hearly', hfinal'⟩ := earlier_final_of_advances hadv
            hs.within.wf hwithin.wf hearly hfinal
          exact Or.inr (Or.inr ⟨h', hkeep h' hh', hearly', hfinal'⟩)

/-- No key of a run goes missing. -/
theorem accounted_run (hfree : CollisionFree C S) (hsub : inserted calls ⊆ S) :
    ∀ h, (lastKey calls h).isSome → Accounted C calls (run C calls) h := by
  induction calls using List.reverseRecOn with
  | nil =>
      intro h hnamed
      cases hnamed
  | append_singleton calls c ih =>
      intro h hnamed
      have hpre := inserted_mono (List.prefix_append calls [c])
      exact accounted_step (sound_run hfree (hpre.trans hsub)) hfree c
        (fun e he => hsub (inserted_snoc he)) (ih (hpre.trans hsub) h) hnamed

/-- Reconciliation is exact. In a run that records each rotation on top of
the ones it holds, records and order name the same rotations, each once, and
after a reconciliation: what is held is canonical; it is marked final exactly
when the log says so; a recorded key is gone only when it was voided or a
held rotation after it is final, and then it is gone; the current key is that
of the last held rotation, and there is one when anything is held; and a
second reconciliation changes nothing. -/
theorem reconciliation_exact (hfree : CollisionFree C (inserted calls))
    (horderly : Orderly C calls) :
    ((run C calls).2.order.Nodup ∧
      ∀ h, h ∈ (run C calls).2.order ↔ h ∈ (run C calls).2.records) ∧
    ∀ front, calls = front ++ [.reconcile] →
      (∀ h ∈ (run C calls).2.records,
        h ∈ (run C calls).1.canonicalRotations) ∧
      (∀ (h : Hash) r, (run C calls).2.records[h]? = some r →
        (r.status = .final ↔ (run C calls).1.isFinal h = true)) ∧
      (∀ h, (lastKey calls h).isSome →
        h ∈ (run C calls).2.records ∨ VoidedSince C calls h ∨
          ∃ h' ∈ (run C calls).2.records,
            Earlier (run C calls).1.canonicalRotations h h' ∧
              (run C calls).1.isFinal h' = true) ∧
      (∀ h ∈ (run C calls).2.records, ∀ h' ∈ (run C calls).2.records,
        Earlier (run C calls).1.canonicalRotations h h' →
          (run C calls).1.isFinal h' = false) ∧
      (∀ h key, (run C calls).2.current = some (h, key) →
        lastKey calls h = some key ∧ h ∈ (run C calls).2.records ∧
          ∀ h' ∈ (run C calls).2.records,
            h' = h ∨ Earlier (run C calls).1.canonicalRotations h' h) ∧
      ((run C calls).2.current.isSome ↔ ∃ h, h ∈ (run C calls).2.records) ∧
      (run C calls).2.reconcile (run C calls).1 =
        (.unchanged, (run C calls).2) := by
  have hs := sound_run hfree subset_rfl
  have hhead := headed_run hfree horderly
  have hacc := accounted_run hfree (Set.Subset.refl (inserted calls))
  refine ⟨⟨hs.kept.nodup, hs.kept.mem_order⟩, ?_⟩
  rintro front rfl
  have hsub := inserted_mono (List.prefix_append front [.reconcile])
  have hfront : Sound C _ front (run C front) := sound_run hfree hsub
  have hheadf := headed_run (hfree.mono hsub) (horderly.front)
  have hwf := hfront.within.wf
  have hrot : ∀ h ∈ ((run C front).2.reconcile (run C front).1).2.records,
      h ∈ (run C front).1.canonicalRotations := fun h hh =>
    ((EpochKeyring.mem_reconcile hwf hfront.kept hfront.settled).1 hh).1
  have hrecorded := hs.recorded
  have hkept := hs.kept
  rw [run_snoc] at hhead hkept hrecorded hacc ⊢
  refine ⟨hrot, fun h r hr => ?_, hacc, fun h hh h' hh' hearly => ?_,
    fun h key hcur => ?_, EpochKeyring.current_isSome hkept hhead, ?_⟩
  · exact EpochKeyring.status_reconcile hwf hfront.kept hfront.settled hr
  · exact EpochKeyring.not_earlier_final hwf hfront.kept hfront.settled hh hh'
      hearly
  · obtain ⟨hkey, hlast⟩ := EpochKeyring.current_last hwf hkept hhead hrot hcur
    exact ⟨hrecorded h key hkey, hlast⟩
  · exact EpochKeyring.reconcile_twice hwf hfront.kept hfront.settled hheadf

/-- A test for `Orderly` on a fixed run. -/
def orderlyCheck (C : Crypto) (calls : List RingCall) : Bool :=
  (List.range calls.length).all fun i =>
    let s := run C (calls.take i)
    calls[i]?.all fun c =>
      (c.delivered.all fun k => s.1.canonicalRotations.contains k.1 &&
        s.2.records.keys.all fun h =>
          decide (Earlier s.1.canonicalRotations h k.1)) &&
      decide (c.delivered.Pairwise fun a b =>
        Earlier s.1.canonicalRotations a.1 b.1)

theorem orderly_of_check (h : orderlyCheck C calls = true) :
    Orderly C calls := by
  intro i c hi
  obtain ⟨hlt, -⟩ := List.getElem?_eq_some_iff.1 hi
  have hone := List.all_eq_true.1 h i (List.mem_range.2 hlt)
  simp only [hi, Option.all_some, Bool.and_eq_true, List.all_eq_true,
    List.contains_iff_mem, decide_eq_true_eq] at hone
  refine ⟨fun k hk => ⟨(hone.1 k hk).1, fun x hx => ?_⟩, hone.2⟩
  exact (hone.1 k hk).2 x (Std.ExtTreeMap.mem_keys.2 hx)

/-- The founder's second reconciliation finds nothing to do. -/
theorem reconciliation_exact_founder :
    (run .sample keptRun).2.reconcile (run .sample keptRun).1 =
      (.unchanged, (run .sample keptRun).2) :=
  ((reconciliation_exact collisionFree_kept
    (orderly_of_check (by decide +kernel))).2 (keptRun.take 4)
      rfl).2.2.2.2.2.2

end RingCall

end Intranet
