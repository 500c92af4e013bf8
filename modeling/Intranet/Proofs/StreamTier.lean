import Intranet.Proofs.Placement
import Intranet.Proofs.Relay
import Intranet.Ref.Sample
import Intranet.Ref.Stream

/-!
# The tier of a stream and the ledger

A tier is taken from a ranking of the willing nodes by upload, which a node
that offers none does not enter. The trigger for a new tier looks at the
willingness alone. A member that stays willing and offers no more upload is
where the two part (`tier_still_eligible_iff`).
-/

namespace Intranet

namespace LiveStream

open Placement (mem_rank_iff)
open Relay (Offered)

variable {C : Crypto} {stream : StreamId} {ledger : CapabilityLedger}
  {node : PerNetworkIdentityId} {tierSize : ℕ}

theorem mem_mediaRelayCandidates {a : CapabilityAdvertisement} :
    a ∈ ledger.mediaRelayCandidates ↔
      ledger.get a.node = some a ∧ a.relayMediaWilling = true := by
  rw [CapabilityLedger.mediaRelayCandidates, List.mem_filter,
    CapabilityLedger.get]
  refine and_congr_left fun _ => ?_
  rw [List.mem_map]
  constructor
  · rintro ⟨⟨key, held⟩, hin, rfl⟩
    have hget := (BTreeMap.mem_toList_iff _ _).1 hin
    rw [ledger.keyed key held hget]
    exact hget
  · intro hget
    exact ⟨(a.node, a), (BTreeMap.mem_toList_iff _ _).2 hget, rfl⟩

theorem exists_mem_rank_iff : (∃ c ∈ Placement.rank C
      stream.hash.bytes.toList ledger.mediaRelayCandidates .bandwidthUp,
        c.node = node) ↔ Offered ledger node := by
  simp only [mem_rank_iff, mem_mediaRelayCandidates]
  constructor
  · rintro ⟨c, ⟨a, ⟨hget, hwilling⟩, hup, rfl⟩, rfl⟩
    exact ⟨a, hget, hwilling, hup⟩
  · rintro ⟨a, hget, hwilling, hup⟩
    obtain rfl : a.node = node := ledger.keyed node a hget
    exact ⟨_, ⟨a, ⟨hget, hwilling⟩, hup, rfl⟩, rfl⟩

/-- Whoever is in a tier is on offer. -/
theorem offered_of_mem_assignTier
    (h : node ∈ assignTier C stream ledger tierSize) :
    Offered ledger node := by
  obtain ⟨c, hc, rfl⟩ := List.mem_map.1 h
  exact exists_mem_rank_iff.1 ⟨c, List.mem_of_mem_take hc, rfl⟩

theorem length_rank_le : (Placement.rank C stream.hash.bytes.toList
    ledger.mediaRelayCandidates .bandwidthUp).length ≤
      ledger.entries.size := by
  rw [Placement.rank, List.length_insertionSort,
    ← Std.ExtTreeMap.length_toList]
  refine (List.length_filterMap_le _ _).trans ?_
  rw [CapabilityLedger.mediaRelayCandidates, ← List.length_map (f := Prod.snd)]
  exact List.length_filter_le _ _

/-- A tier as large as the ledger has all who are. -/
theorem mem_assignTier_iff (hsize : ledger.entries.size ≤ tierSize) :
    node ∈ assignTier C stream ledger tierSize ↔ Offered ledger node := by
  refine ⟨offered_of_mem_assignTier, fun h => ?_⟩
  rw [assignTier, Placement.select,
    List.take_of_length_le (length_rank_le.trans hsize)]
  exact List.mem_map.2 (exists_mem_rank_iff.2 h)

theorem tierNeedsRecompute_eq_false_iff {live : LiveStream} :
    live.tierNeedsRecompute ledger = false ↔
      ∀ node ∈ live.tier, ∃ advertisement,
        ledger.get node = some advertisement ∧
          advertisement.relayMediaWilling = true := by
  rw [tierNeedsRecompute, List.any_eq_false]
  refine forall₂_congr fun node _ => ?_
  cases ledger.get node with
  | none => simp
  | some advertisement => simp

/-- A tier that was just computed needs no other. -/
theorem recomputeTier_settles (C : Crypto) (live : LiveStream)
    (ledger : CapabilityLedger) :
    (live.recomputeTier C ledger).tierNeedsRecompute ledger = false := by
  refine tierNeedsRecompute_eq_false_iff.2 fun node hnode => ?_
  obtain ⟨advertisement, hget, hwilling, -⟩ := offered_of_mem_assignTier hnode
  exact ⟨advertisement, hget, hwilling⟩

/-- A tier that needs no recompute is ranked in full by a later ledger, and a
new one needs none, if and only if by that ledger some member is missing or
unwilling, or all of them offer upload. -/
theorem tier_still_eligible_iff (C : Crypto) (live : LiveStream)
    (later : CapabilityLedger) :
    ((live.tierNeedsRecompute later = false → ∀ node ∈ live.tier,
        ∀ tierSize, later.entries.size ≤ tierSize →
          node ∈ assignTier C live.stream later tierSize) ∧
      (live.recomputeTier C later).tierNeedsRecompute later = false) ↔
      (∃ node ∈ live.tier, ∀ advertisement,
        later.get node = some advertisement →
          advertisement.relayMediaWilling = false) ∨
      ∀ node ∈ live.tier, ∃ advertisement,
        later.get node = some advertisement ∧
          0 < advertisement.bandwidthCap.upBytesPerSec := by
  rw [and_iff_left (recomputeTier_settles C live later),
    tierNeedsRecompute_eq_false_iff]
  constructor
  · intro h
    by_cases hall : ∀ node ∈ live.tier, ∃ advertisement,
        later.get node = some advertisement ∧
          advertisement.relayMediaWilling = true
    · refine .inr fun node hnode => ?_
      obtain ⟨advertisement, hget, -, hup⟩ :=
        (mem_assignTier_iff le_rfl).1 (h hall node hnode _ le_rfl)
      exact ⟨advertisement, hget, hup⟩
    · refine .inl ?_
      push Not at hall
      obtain ⟨node, hnode, hout⟩ := hall
      exact ⟨node, hnode, fun advertisement hget =>
        Bool.eq_false_of_not_eq_true (hout advertisement hget)⟩
  · rintro (⟨node, hnode, hout⟩ | hup) hall other hother tierSize hsize
    · obtain ⟨advertisement, hget, hwilling⟩ := hall node hnode
      rw [hout advertisement hget] at hwilling
      cases hwilling
    · obtain ⟨advertisement, hget, hwilling⟩ := hall other hother
      obtain ⟨same, hsame, hpositive⟩ := hup other hother
      rw [hget, Option.some.injEq] at hsame
      exact (mem_assignTier_iff hsize).2
        ⟨advertisement, hget, hwilling, hsame ▸ hpositive⟩

/-! ### A member without upload -/

/-- Node 1 is willing to relay media, with the given upload. -/
def relaying (up : UInt64) : CapabilityLedger :=
  (CapabilityLedger.new Sample.network).put
    ⟨Sample.network, Sample.identity 1, 0, ⟨up, 0, none⟩, false, true,
      .minimal, ⟨0⟩, Sample.signature 1 0⟩

/-- Node 1 is the tier, stays willing with no upload left, and nothing asks
for another tier although the ranking no longer has it. -/
theorem member_without_upload_stays :
    let live := start .sample ⟨Sample.hash 3⟩ (relaying 10) 1 3
    live.tier = [Sample.identity 1] ∧
      live.tierNeedsRecompute (relaying 0) = false ∧
      assignTier .sample live.stream (relaying 0)
        (relaying 0).entries.size = [] := by
  decide +kernel

end LiveStream

end Intranet
