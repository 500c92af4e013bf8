import Intranet.Lib.Machine
import Intranet.Proofs.Keyring
import Intranet.Ref.Sample

/-!
# A log and the keyring beside it

Runs of one node's log and keyring, with entries, clock readings, deliveries
and reconciliations in any order.

A reconciliation drops what is off the canonical chain at that moment, and
before finality the chain can come back. So a key is safe as long as every
held rotation a reconciliation finds off the chain has been cut off for good
by the finalized entry (`key_retained`); a rotation whose entry has not
arrived yet, or one on a branch that loses for a while, is not
(`keys_lost`).
-/

namespace Intranet

open GovernanceLog

/-- A call on the log, or on the keyring beside it. -/
inductive RingCall where
  | log (call : GovernanceLog.Call)
  | record (rotationRef : Hash) (epoch : UInt64) (key : EpochKey)
  | acceptDelivered (keys : List (Hash × EpochKey))
  | reconcile

namespace RingCall

/-- The keys a call records. -/
def delivered : RingCall → List (Hash × EpochKey)
  | .record rotationRef _ key => [(rotationRef, key)]
  | .acceptDelivered keys => keys
  | _ => []

/-- One call, with the report of a reconciliation. -/
def step (C : Crypto) (s : GovernanceLog × EpochKeyring) : RingCall →
    Option KeyringReconciliation × (GovernanceLog × EpochKeyring)
  | .log call => (none, (s.1.call C call, s.2))
  | .record rotationRef epoch key =>
      (none, (s.1, s.2.record rotationRef epoch key))
  | .acceptDelivered keys =>
      (none, (s.1, match s.2.acceptDelivered keys with
        | .ok ring => ring
        | .error _ => s.2))
  | .reconcile =>
      (some (s.2.reconcile s.1).1, (s.1, (s.2.reconcile s.1).2))

/-- A run from an empty log and an empty keyring. -/
def run (C : Crypto) (calls : List RingCall) : GovernanceLog × EpochKeyring :=
  Machine.state (step C) (GovernanceLog.new, EpochKeyring.new) calls

/-- The key last recorded for a rotation. -/
def lastKey (calls : List RingCall) (r : Hash) : Option EpochKey :=
  ((calls.flatMap delivered).filter fun d => d.1 = r).getLast?.map Prod.snd

/-- The entries inserted in a run. -/
def inserted (calls : List RingCall) : Set LogEntry :=
  {e | .log (.insert e) ∈ calls}

variable {C : Crypto} {S : Set LogEntry} {calls : List RingCall} {r : Hash}
  {key : EpochKey} {log log' : GovernanceLog} {ring : EpochKeyring}

theorem run_snoc (calls : List RingCall) (c : RingCall) :
    run C (calls ++ [c]) = (step C (run C calls) c).2 :=
  Machine.state_snoc calls c

theorem lastKey_snoc (calls : List RingCall) (c : RingCall) :
    lastKey (calls ++ [c]) r =
      ((c.delivered.filter fun d => d.1 = r).getLast?.map Prod.snd).or
        (lastKey calls r) := by
  simp only [lastKey, List.flatMap_append, List.flatMap_singleton,
    List.filter_append, List.getLast?_append]
  cases (c.delivered.filter fun d => decide (d.1 = r)).getLast? <;> rfl

/-- Recording a list of keys, one after the other. -/
theorem lookup_delivered (keys : List ((Hash × EpochKey) × ℕ))
    (ring : EpochKeyring) :
    (keys.foldl (fun ring d => ring.record d.1.1 (UInt64.ofNat d.2) d.1.2)
        ring).keyFor r =
      (((keys.map Prod.fst).filter fun d => d.1 = r).getLast?.map Prod.snd).or
        (ring.keyFor r) := by
  induction keys using List.reverseRecOn with
  | nil => rfl
  | append_singleton keys d ih =>
      rw [List.foldl_append, List.map_append, List.filter_append,
        List.getLast?_append]
      simp only [List.foldl_cons, List.foldl_nil, List.map_cons, List.map_nil]
      by_cases hd : d.1.1 = r
      · simp [EpochKeyring.keyFor, EpochKeyring.record, hd]
      · simp only [EpochKeyring.keyFor, EpochKeyring.record,
          BTreeMap.getElem?_insert_ite, if_neg hd] at ih ⊢
        rw [ih]
        simp [hd]

/-- What a call that is no reconciliation does to a lookup. -/
theorem step_keyFor (s : GovernanceLog × EpochKeyring) (c : RingCall)
    (hc : c ≠ .reconcile) : (step C s c).2.2.keyFor r =
      ((c.delivered.filter fun d => d.1 = r).getLast?.map Prod.snd).or
        (s.2.keyFor r) := by
  cases c with
  | log call => rfl
  | record ref epoch key =>
      have hone := lookup_delivered (r := r) [((ref, key), epoch.toNat)] s.2
      simpa [step, delivered] using hone
  | acceptDelivered keys =>
      cases keys with
      | nil => rfl
      | cons k keys =>
          have hall := lookup_delivered (r := r) (k :: keys).zipIdx s.2
          rw [List.zipIdx_map_fst] at hall
          exact hall
  | reconcile => exact absurd rfl hc

theorem step_log_eq (s : GovernanceLog × EpochKeyring) (c : RingCall)
    (hc : ∀ call, c ≠ .log call) : (step C s c).2.1 = s.1 := by
  cases c with
  | log call => exact absurd rfl (hc call)
  | record | acceptDelivered | reconcile => rfl

theorem Kept_foldl (keys : List ((Hash × EpochKey) × ℕ)) (ring : EpochKeyring)
    (hkept : ring.Kept) : (keys.foldl (fun ring d =>
      ring.record d.1.1 (UInt64.ofNat d.2) d.1.2) ring).Kept := by
  induction keys generalizing ring with
  | nil => exact hkept
  | cons d keys ih => exact ih _ (hkept.record _ _ _)

theorem kept_step (s : GovernanceLog × EpochKeyring) (c : RingCall)
    (hkept : s.2.Kept) : (step C s c).2.2.Kept := by
  cases c with
  | log call => exact hkept
  | record ref epoch key => exact hkept.record ref epoch key
  | acceptDelivered keys =>
      cases keys with
      | nil => exact hkept
      | cons k keys => exact Kept_foldl _ _ hkept
  | reconcile => exact hkept.reconcile s.1

/-! ## What finality makes permanent -/

theorem above_of_advances (hadv : Advances log log') (hwf : Wf C log)
    (hwf' : Wf C log') {a b : Hash} (hb : b ∈ log.entries) :
    Walk.Above log'.parentOf a b ↔ Walk.Above log.parentOf a b :=
  hadv.keeps.above_iff hwf hwf' hb

theorem producesEpoch_of_advances (hadv : Advances log log') {h : Hash}
    (hmem : h ∈ log.entries) : log'.get h = log.get h :=
  hadv.keeps.getElem?_eq hmem

theorem rotation_mem (hwf : Wf C log) {h : Hash}
    (hh : h ∈ log.canonicalRotations) : h ∈ log.entries :=
  hwf.mem_of_canonical (mem_canonicalRotations.1 hh).1

/-- A rotation above a final one is canonical for good. -/
theorem rotation_of_final (hadv : Advances log log') (hwf : Wf C log)
    (hwf' : Wf C log') {h h' : Hash} (hup : Walk.Above log.parentOf h h')
    (hh' : h' ∈ log.entries) (hfinal : log.isFinal h' = true)
    (hh : h ∈ log.canonicalRotations) : h ∈ log'.canonicalRotations := by
  have hup' := (above_of_advances hadv hwf hwf' hh').2 hup
  have hfinal' := hwf'.isFinal_of_above hup' (hadv.isFinal hwf hwf' hfinal)
  rw [mem_canonicalRotations, producesEpoch_of_advances hadv (rotation_mem hwf hh)]
  exact ⟨hwf'.mem_canonicalChain_of_final hfinal', (mem_canonicalRotations.1 hh).2⟩

/-- That a later rotation is final does not change any more. -/
theorem earlier_final_of_advances (hadv : Advances log log') (hwf : Wf C log)
    (hwf' : Wf C log') {h h' : Hash}
    (hearly : Earlier log.canonicalRotations h h')
    (hfinal : log.isFinal h' = true) :
    Earlier log'.canonicalRotations h h' ∧ log'.isFinal h' = true := by
  have hh' := rotation_mem hwf hearly.mem_right
  obtain ⟨-, -, hup, hne⟩ := hwf.earlier_iff.1
    (earlier_canonicalRotations_iff.1 hearly).1
  have hmem := rotation_of_final hadv hwf hwf' hup hh' hfinal hearly.mem_left
  have hmem' := rotation_of_final hadv hwf hwf' (.refl h') hh' hfinal
    hearly.mem_right
  refine ⟨earlier_canonicalRotations_iff.2 ⟨hwf'.earlier_iff.2 ⟨?_, ?_, ?_, hne⟩,
    hmem, hmem'⟩, hadv.isFinal hwf hwf' hfinal⟩
  · exact (mem_canonicalRotations.1 hmem).1
  · exact (mem_canonicalRotations.1 hmem').1
  · exact (above_of_advances hadv hwf hwf' hh').2 hup

/-- A stored entry neither above nor below the finalized one. -/
def Excluded (log : GovernanceLog) (r : Hash) : Prop :=
  r ∈ log.entries ∧ ∃ f, log.finalized = some f ∧
    r ∉ log.ancestry f ∧ f ∉ log.ancestry r

theorem Excluded.not_canonical (hex : Excluded log r) (hwf : Wf C log) :
    r ∉ log.canonicalChain := by
  obtain ⟨hr, f, hf, hnup, hndown⟩ := hex
  obtain ⟨t, -, hchain, hbelow⟩ := hwf.canonicalChain_tip hr
  rw [hchain, hwf.mem_ancestry]
  intro hrt
  rcases Walk.Above.total hrt (hbelow f hf) with hup | hdown
  · exact hnup (hwf.mem_ancestry.2 hup)
  · exact hndown (hwf.mem_ancestry.2 hdown)

/-- A branch the finalized entry has cut off stays cut off. -/
theorem Excluded.advance (hex : Excluded log r) (hadv : Advances log log')
    (hwf : Wf C log) (hwf' : Wf C log') : Excluded log' r := by
  obtain ⟨hr, f, hf, hnup, hndown⟩ := hex
  obtain ⟨f', hf', hff'⟩ := hadv.final f hf
  have hfmem := hwf.finalized_mem f hf
  refine ⟨hadv.keeps.mem hr, f', hf', ?_, ?_⟩
  · rw [hwf'.mem_ancestry]
    intro hrf'
    rcases Walk.Above.total hrf' hff' with hup | hdown
    · exact hnup (hwf.mem_ancestry.2
        ((above_of_advances hadv hwf hwf' hfmem).1 hup))
    · exact hndown (hwf.mem_ancestry.2
        ((above_of_advances hadv hwf hwf' hr).1 hdown))
  · rw [hwf'.mem_ancestry]
    intro hf'r
    exact hndown (hwf.mem_ancestry.2
      ((above_of_advances hadv hwf hwf' hr).1 (hff'.trans hf'r)))

/-! ## What every run keeps -/

/-- The invariant of any run: the log is well formed, the keyring is in step
with itself and with finality, and it holds nothing that was not recorded. -/
structure Sound (C : Crypto) (S : Set LogEntry) (calls : List RingCall)
    (s : GovernanceLog × EpochKeyring) : Prop where
  within : Within C S s.1
  kept : s.2.Kept
  settled : s.2.Settled s.1
  recorded : ∀ (h : Hash) key, s.2.keyFor h = some key →
    lastKey calls h = some key

theorem sound_start : Sound C S [] (GovernanceLog.new, EpochKeyring.new) where
  within := within_new
  kept := EpochKeyring.kept_new
  settled h r hr := by simp [EpochKeyring.new] at hr
  recorded h key hkey := by simp [EpochKeyring.keyFor, EpochKeyring.new] at hkey

theorem keyFor_step_of_ne {s : GovernanceLog × EpochKeyring} {c : RingCall}
    (hc : c ≠ .reconcile) {h : Hash} {key : EpochKey}
    (hkey : (step C s c).2.2.keyFor h = some key)
    (hold : s.2.keyFor h = some key → lastKey calls h = some key) :
    lastKey (calls ++ [c]) h = some key := by
  rw [step_keyFor s c hc] at hkey
  rw [lastKey_snoc]
  cases hlast : (c.delivered.filter fun d => decide (d.1 = h)).getLast? with
  | none =>
      rw [hlast] at hkey
      exact hold hkey
  | some d =>
      rw [hlast] at hkey
      exact hkey

theorem lastKey_reconcile (calls : List RingCall) :
    lastKey (calls ++ [.reconcile]) r = lastKey calls r := by
  rw [lastKey_snoc]
  rfl

/-- How the log of a run moves. -/
theorem Sound.advances {s : GovernanceLog × EpochKeyring}
    (hs : Sound C S calls s) (hfree : CollisionFree C S) (c : RingCall)
    (hc : ∀ e, c = .log (.insert e) → e ∈ S) :
    Within C S (step C s c).2.1 ∧ Advances s.1 (step C s c).2.1 := by
  by_cases hlog : ∃ call, c = .log call
  · obtain ⟨call, rfl⟩ := hlog
    exact hs.within.call hfree fun e he => hc e (he ▸ rfl)
  · rw [step_log_eq s c fun call heq => hlog ⟨call, heq⟩]
    exact ⟨hs.within, Advances.refl s.1⟩

theorem settled_record (hset : ring.Settled log) (ref : Hash) (epoch : UInt64)
    (key : EpochKey) : (ring.record ref epoch key).Settled log := by
  intro h r hr hfinal
  rw [EpochKeyring.record, BTreeMap.getElem?_insert_ite] at hr
  split at hr
  · cases hr
    cases hfinal
  · exact hset h r hr hfinal

theorem settled_step {s : GovernanceLog × EpochKeyring}
    (hs : Sound C S calls s) (hfree : CollisionFree C S) (c : RingCall)
    (hc : ∀ e, c = .log (.insert e) → e ∈ S) :
    (step C s c).2.2.Settled (step C s c).2.1 := by
  obtain ⟨hwithin, hadv⟩ := hs.advances hfree c hc
  cases c with
  | log call =>
      intro h r hr hfinal
      exact hadv.isFinal hs.within.wf hwithin.wf (hs.settled h r hr hfinal)
  | record ref epoch key => exact settled_record hs.settled ref epoch key
  | acceptDelivered keys =>
      cases keys with
      | nil => exact hs.settled
      | cons k keys =>
          refine List.foldlRecOn (motive := fun (ring : EpochKeyring) => ring.Settled s.1) _ _
            hs.settled fun ring hring d _ => ?_
          exact settled_record hring d.1.1 (UInt64.ofNat d.2) d.1.2
  | reconcile => exact EpochKeyring.Settled.reconcile hs.within.wf hs.kept hs.settled

/-- A key a reconciliation leaves was there before, unchanged. -/
theorem keyFor_of_reconcile {s : GovernanceLog × EpochKeyring}
    (hs : Sound C S calls s) {h : Hash} {key : EpochKey}
    (hkey : (s.2.reconcile s.1).2.keyFor h = some key) :
    s.2.keyFor h = some key := by
  obtain ⟨r, hr, rfl⟩ := Option.map_eq_some_iff.1 hkey
  obtain ⟨-, -, r₀, hr₀, rfl⟩ :=
    (EpochKeyring.reconcile_records hs.within.wf hs.kept hs.settled).1 hr
  exact Option.map_eq_some_iff.2 ⟨r₀, hr₀, (EpochKeyring.marked_key r₀).symm⟩

theorem Sound.step {s : GovernanceLog × EpochKeyring} (hs : Sound C S calls s)
    (hfree : CollisionFree C S) (c : RingCall)
    (hc : ∀ e, c = .log (.insert e) → e ∈ S) :
    Sound C S (calls ++ [c]) (step C s c).2 where
  within := (hs.advances hfree c hc).1
  kept := kept_step s c hs.kept
  settled := settled_step hs hfree c hc
  recorded h key hkey := by
    by_cases hrec : c = .reconcile
    · subst hrec
      rw [lastKey_reconcile]
      exact hs.recorded h key (keyFor_of_reconcile hs hkey)
    · exact keyFor_step_of_ne hrec hkey (hs.recorded h key)

theorem inserted_snoc {c : RingCall} {e : LogEntry} (h : c = .log (.insert e)) :
    e ∈ inserted (calls ++ [c]) := by
  rw [h]
  exact List.mem_append_right calls List.mem_cons_self

theorem inserted_mono {pre : List RingCall} (h : pre <+: calls) :
    inserted pre ⊆ inserted calls :=
  fun _ he => h.subset he

/-- Every run is sound. -/
theorem sound_run (hfree : CollisionFree C S) (hsub : inserted calls ⊆ S) :
    Sound C S calls (run C calls) := by
  induction calls using List.reverseRecOn with
  | nil => exact sound_start
  | append_singleton calls c ih =>
      rw [run_snoc]
      have hpre := inserted_mono (List.prefix_append calls [c])
      exact (ih (hpre.trans hsub)).step hfree c fun e he =>
        hsub (inserted_snoc he)

theorem take_of_prefix {pre : List RingCall} {c : RingCall}
    (hpre : pre ++ [c] <+: calls) :
    calls[pre.length]? = some c ∧ calls.take pre.length = pre := by
  obtain ⟨rest, rfl⟩ := hpre
  simp

/-! ## Keys that can still matter -/

/-- The key of `r` can never matter again: its branch is cut off, its entry
is no rotation, or a recorded rotation after it is final. -/
def Spent (calls : List RingCall) (log : GovernanceLog) (r : Hash) : Prop :=
  Excluded log r ∨
  (∃ e, log.get r = some e ∧ e.body.producesEpoch = false) ∨
  ∃ r', (lastKey calls r').isSome ∧ Earlier log.canonicalRotations r r' ∧
    log.isFinal r' = true

/-- Every reconciliation finds what is held on the canonical chain, or on a
branch that is cut off for good. -/
def Spares (C : Crypto) (calls : List RingCall) : Prop :=
  ∀ i : ℕ, calls[i]? = some .reconcile →
    ∀ r ∈ (run C (calls.take i)).2.records,
      r ∈ (run C (calls.take i)).1.canonicalChain ∨
        Excluded (run C (calls.take i)).1 r

theorem isSome_lastKey_snoc {c : RingCall} (h : (lastKey calls r).isSome) :
    (lastKey (calls ++ [c]) r).isSome := by
  rw [lastKey_snoc]
  cases (c.delivered.filter fun d => decide (d.1 = r)).getLast? with
  | none => exact h
  | some d => rfl

theorem Spent.advance (hspent : Spent calls log r) (hadv : Advances log log')
    (hwf : Wf C log) (hwf' : Wf C log') (c : RingCall) :
    Spent (calls ++ [c]) log' r := by
  rcases hspent with hex | ⟨e, he, hbody⟩ | ⟨r', hr', hearly, hfinal⟩
  · exact Or.inl (hex.advance hadv hwf hwf')
  · exact Or.inr (Or.inl ⟨e, hadv.keeps r e he, hbody⟩)
  · obtain ⟨hearly', hfinal'⟩ :=
      earlier_final_of_advances hadv hwf hwf' hearly hfinal
    exact Or.inr (Or.inr ⟨r', isSome_lastKey_snoc hr', hearly', hfinal'⟩)

/-- A reconciliation that spares what is held loses only spent keys. -/
theorem custody_reconcile {s : GovernanceLog × EpochKeyring}
    (hs : Sound C S calls s)
    (hspares : ∀ r ∈ s.2.records, r ∈ s.1.canonicalChain ∨ Excluded s.1 r)
    (hkey : s.2.keyFor r = some key) :
    (s.2.reconcile s.1).2.keyFor r = some key ∨ Spent calls s.1 r := by
  obtain ⟨rec, hrec, -⟩ := Option.map_eq_some_iff.1 hkey
  have hmem := (BTreeMap.mem_iff_exists s.2.records r).2 ⟨rec, hrec⟩
  rcases hspares r hmem with hcanon | hex
  · by_cases hrot : r ∈ s.1.canonicalRotations
    · by_cases hsup : EpochKeyring.Superseded s.1 s.2 r
      · obtain ⟨n, hn, hearly, hfinal⟩ := hsup
        obtain ⟨rec', hrec'⟩ := (BTreeMap.mem_iff_exists s.2.records n).1 hn
        have hlast := hs.recorded n rec'.key (Option.map_eq_some_iff.2
          ⟨rec', hrec', rfl⟩)
        exact Or.inr (Or.inr (Or.inr ⟨n, by rw [hlast]; rfl, hearly, hfinal⟩))
      · exact Or.inl (EpochKeyring.keyFor_reconcile hs.within.wf hs.kept
          hs.settled hrot hsup hkey)
    · -- on the chain, and not a rotation
      obtain ⟨e, he⟩ := (BTreeMap.mem_iff_exists s.1.entries r).1
        (hs.within.wf.mem_of_canonical hcanon)
      refine Or.inr (Or.inr (Or.inl ⟨e, he, ?_⟩))
      rw [mem_canonicalRotations] at hrot
      rw [← Bool.not_eq_true]
      intro hbody
      exact hrot ⟨hcanon, (Option.any_eq_true _ _).2 ⟨e, he, hbody⟩⟩
  · exact Or.inr (Or.inl hex)

theorem custody_step {s : GovernanceLog × EpochKeyring}
    (hs : Sound C S calls s) (hfree : CollisionFree C S) (c : RingCall)
    (hc : ∀ e, c = .log (.insert e) → e ∈ S)
    (hspares : c = .reconcile →
      ∀ r ∈ s.2.records, r ∈ s.1.canonicalChain ∨ Excluded s.1 r)
    (hold : ∀ r key, lastKey calls r = some key →
      s.2.keyFor r = some key ∨ Spent calls s.1 r)
    (hkey : lastKey (calls ++ [c]) r = some key) :
    (step C s c).2.2.keyFor r = some key ∨
      Spent (calls ++ [c]) (step C s c).2.1 r := by
  obtain ⟨hwithin, hadv⟩ := hs.advances hfree c hc
  by_cases hrec : c = .reconcile
  · subst hrec
    rw [lastKey_reconcile] at hkey
    rcases hold r key hkey with hheld | hspent
    · exact (custody_reconcile hs (hspares rfl) hheld).imp_right fun hspent =>
        hspent.advance hadv hs.within.wf hwithin.wf .reconcile
    · exact Or.inr (hspent.advance hadv hs.within.wf hwithin.wf .reconcile)
  · rw [step_keyFor s c hrec]
    rw [lastKey_snoc] at hkey
    cases hlast : (c.delivered.filter fun d => decide (d.1 = r)).getLast? with
    | none =>
        rw [hlast] at hkey
        exact (hold r key hkey).imp_right fun hspent =>
          hspent.advance hadv hs.within.wf hwithin.wf c
    | some d =>
        rw [hlast] at hkey
        exact Or.inl hkey

/-- Every recorded key is held, or spent. -/
theorem custody_run (hfree : CollisionFree C (inserted calls))
    (hspares : Spares C calls) : ∀ r key, lastKey calls r = some key →
      (run C calls).2.keyFor r = some key ∨ Spent calls (run C calls).1 r := by
  suffices hall : ∀ pre, pre <+: calls → ∀ r key, lastKey pre r = some key →
      (run C pre).2.keyFor r = some key ∨ Spent pre (run C pre).1 r from
    hall calls List.prefix_rfl
  intro pre
  induction pre using List.reverseRecOn with
  | nil =>
      intro _ r key hkey
      cases hkey
  | append_singleton pre c ih =>
      intro hpre r key hkey
      have hpre' := (List.prefix_append pre [c]).trans hpre
      have hsub := inserted_mono hpre'
      obtain ⟨hget, htake⟩ := take_of_prefix hpre
      rw [run_snoc]
      refine custody_step (sound_run hfree hsub) hfree c
        (fun e he => inserted_mono hpre (inserted_snoc he)) (fun hc => ?_)
        (ih hpre') hkey
      have hone := hspares pre.length (hc ▸ hget)
      rwa [htake] at hone

/-- A key that can still matter is never dropped: in a run whose
reconciliations spare what is held, every recorded rotation of the canonical
chain still has its key, unless a later recorded rotation of the chain is
final. -/
theorem key_retained (hfree : CollisionFree C (inserted calls))
    (hspares : Spares C calls) (hr : r ∈ (run C calls).1.canonicalRotations)
    (hkey : lastKey calls r = some key)
    (hlater : ∀ r', (lastKey calls r').isSome →
      Earlier (run C calls).1.canonicalRotations r r' →
        (run C calls).1.isFinal r' = false) :
    (run C calls).2.keyFor r = some key := by
  have hwf := (sound_run hfree subset_rfl).within.wf
  rcases custody_run hfree hspares r key hkey with
    hheld | hex | ⟨e, he, hbody⟩ | ⟨r', hr', hearly, hfinal⟩
  · exact hheld
  · exact absurd (mem_canonicalRotations.1 hr).1 (hex.not_canonical hwf)
  · have hany := (mem_canonicalRotations.1 hr).2
    rw [he, Option.any_some, hbody] at hany
    cases hany
  · rw [hlater r' hr' hearly] at hfinal
    cases hfinal

/-- A test for `Spares` on a fixed run. -/
def sparesCheck (C : Crypto) (calls : List RingCall) : Bool :=
  (List.range calls.length).all fun i =>
    (run C (calls.take i)).2.records.keys.all fun r =>
      (run C (calls.take i)).1.canonicalChain.contains r

theorem spares_of_check (h : sparesCheck C calls = true) : Spares C calls := by
  intro i hi r hr
  obtain ⟨hlt, -⟩ := List.getElem?_eq_some_iff.1 hi
  have hone := List.all_eq_true.1 h i (List.mem_range.2 hlt)
  have hcontains := List.all_eq_true.1 hone r (Std.ExtTreeMap.mem_keys.2 hr)
  exact Or.inl (List.contains_iff_mem.1 hcontains)

/-- The entry a call inserts. -/
def entry? : RingCall → Option LogEntry
  | .log (.insert e) => some e
  | _ => none

theorem collisionFree_of_calls
    (h : ((calls.filterMap entry?).map (LogEntry.hash C)).Nodup) :
    CollisionFree C (inserted calls) := by
  refine (collisionFree_of_nodup h).mono ?_
  intro e he
  exact List.mem_filterMap.2 ⟨.log (.insert e), he, rfl⟩

/-- A rotation entry of the founder. -/
def sampleRotation (nonce : ℕ) (parent : Option ℕ) : RingCall :=
  .log (.insert (Sample.entry nonce parent 10 1
    (.epochRotation .memberAdmitted [])))

def sampleAdmits (nonce : ℕ) (parent : Option ℕ) (n : ℕ) : RingCall :=
  .log (.insert (Sample.entry nonce parent 10 1 (Sample.admits n)))

def sampleGenesis : RingCall :=
  .log (.insert (Sample.genesis 1 .conservativeDefault []))

def sampleKey (n : UInt8) : EpochKey := ⟨Bytes.replicate 32 n⟩

/-- The founder rotates once and reconciles. -/
def keptRun : List RingCall :=
  [sampleGenesis, .record (Sample.hash 1) 0 (sampleKey 1),
    sampleRotation 2 (some 1), .record (Sample.hash 2) 1 (sampleKey 2),
    .reconcile]

theorem collisionFree_kept : CollisionFree .sample (inserted keptRun) :=
  collisionFree_of_calls (by decide +kernel)

/-- The superseded key of the founding epoch is still there. -/
theorem key_retained_founder :
    (run .sample keptRun).2.keyFor (Sample.hash 1) = some (sampleKey 1) := by
  refine key_retained (r := Sample.hash 1) collisionFree_kept
    (spares_of_check (by decide +kernel)) (by decide +kernel)
    (by decide +kernel) fun r' _ _ => ?_
  have hnone : (run .sample keptRun).1.finalized = none := by decide +kernel
  rw [isFinal, hnone]

/-- A key is gone although its rotation is canonical and nothing is final. -/
def Loses (calls : List RingCall) (r : Hash) : Prop :=
  CollisionFree .sample (inserted calls) ∧
    r ∈ (run .sample calls).1.canonicalRotations ∧
    (lastKey calls r).isSome ∧ (run .sample calls).1.finalized = none ∧
    (run .sample calls).2.keyFor r = none

/-- The key of a rotation arrives with a Welcome, and the rotation's entry
after the next reconciliation. -/
def welcomeFirst : List RingCall :=
  [sampleGenesis, .record (Sample.hash 2) 1 (sampleKey 2), .reconcile,
    sampleRotation 2 (some 1)]

/-- The branch of an applied rotation loses the lead for one reconciliation
and wins it back. -/
def leadLost : List RingCall :=
  [sampleGenesis, sampleRotation 2 (some 1),
    .record (Sample.hash 2) 1 (sampleKey 2),
    sampleAdmits 3 (some 1) 2, sampleAdmits 4 (some 3) 3, .reconcile,
    sampleAdmits 5 (some 2) 2, sampleAdmits 6 (some 5) 3]

/-- Both ways in which a reconciliation drops a key that matters again. -/
theorem keys_lost : Loses welcomeFirst (Sample.hash 2) ∧
    Loses leadLost (Sample.hash 2) := by
  constructor
  · exact ⟨collisionFree_of_calls (by decide +kernel), by decide +kernel,
      by decide +kernel, by decide +kernel, by decide +kernel⟩
  · exact ⟨collisionFree_of_calls (by decide +kernel), by decide +kernel,
      by decide +kernel, by decide +kernel, by decide +kernel⟩

end RingCall

end Intranet
