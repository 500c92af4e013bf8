import Intranet.Proofs.Join
import Intranet.Proofs.Removal

/-!
# How many an invite admits

An invite names the number of identities it may admit, and `validate` compares
that with the members present whose record carries the invite's provenance.
The comparison is sound as long as everyone the invite let in is still among
them. A removal, a cascade, or a second addition without the provenance takes
a record away; the use then counts as never made, and the invite admits
someone else in its place.

`invite_uses_bounded` is about whole histories. It follows the identities
ever admitted with the provenance through a run of join answers and other
entries, and shows that they stay within the limit as long as no entry drops
a use and none is added by hand over the limit.
-/

namespace Intranet

/-- The membership came from the invite. -/
def MembershipRecord.Carries (r : MembershipRecord) (inviteId : Hash) : Prop :=
  ∃ p, r.viaInvite = some p ∧ p.inviteId = inviteId

/-- Whom the entry admits with the provenance of an invite. -/
def LogEntry.admitsBy (inviteId : Hash) (e : LogEntry) :
    Option PerNetworkIdentityId :=
  match e.body with
  | .membershipChange _ x (.add (some p)) =>
      if p.inviteId = inviteId then some x else none
  | _ => none

theorem LogEntry.admitsBy_eq_some {inviteId : Hash} {e : LogEntry}
    {x : PerNetworkIdentityId} :
    e.admitsBy inviteId = some x ↔ ∃ g p,
      e.body = .membershipChange g x (.add (some p)) ∧ p.inviteId = inviteId := by
  rw [admitsBy]
  split
  · next g y p hbody =>
      rw [hbody]
      constructor
      · intro h
        split at h
        · next hid =>
            cases h
            exact ⟨g, p, rfl, hid⟩
        · cases h
      · intro hgiven
        obtain ⟨g', p', heq, hid⟩ := hgiven
        cases heq
        rw [if_pos hid]
  · next hnot =>
      refine iff_of_false nofun fun hgiven => ?_
      obtain ⟨g, p, hbody, -⟩ := hgiven
      exact hnot _ _ _ hbody

namespace GovernanceState

variable {C : Crypto} {s s' : GovernanceState} {e : LogEntry}

/-! ## Records and what changes them -/

theorem eraseAll_getElem? (ids : List PerNetworkIdentityId)
    (members : BTreeMap PerNetworkIdentityId MembershipRecord)
    {y : PerNetworkIdentityId} {r : MembershipRecord}
    (h : (ids.foldl (fun m id => m.erase id) members)[y]? = some r) :
    members[y]? = some r := by
  induction ids generalizing members with
  | nil => exact h
  | cons id ids ih =>
      have hrest := ih (members.erase id) h
      rw [BTreeMap.getElem?_erase_ite] at hrest
      split at hrest
      · cases hrest
      · exact hrest

theorem cascadeLoop_getElem? (cutoff : Option Timestamp) (fuel : ℕ)
    (pending : List PerNetworkIdentityId)
    (members : BTreeMap PerNetworkIdentityId MembershipRecord)
    {y : PerNetworkIdentityId} {r : MembershipRecord}
    (h : (cascadeLoop cutoff fuel pending members)[y]? = some r) :
    members[y]? = some r := by
  induction fuel generalizing pending members with
  | zero => exact h
  | succ fuel ih =>
      cases pending with
      | nil => exact h
      | cons remover pending => exact eraseAll_getElem? _ _ (ih _ _ h)

/-- A removal leaves the records it does not take as they were. -/
theorem membersLeft_getElem?
    {members : BTreeMap PerNetworkIdentityId MembershipRecord}
    {identity y : PerNetworkIdentityId} {cascade : Option Cascade}
    {removedAt : Timestamp} {r : MembershipRecord}
    (h : (membersLeft members identity cascade removedAt)[y]? = some r) :
    members[y]? = some r := by
  cases cascade with
  | none => exact eraseAll_getElem? [identity] members h
  | some c =>
      exact eraseAll_getElem? [identity] members
        (cascadeLoop_getElem? _ _ _ _ h)

/-- The record of `y` in `g` after an entry. -/
theorem membership_mutate (h : s.mutate C e = .ok s') (g : GroupId)
    (y : PerNetworkIdentityId) :
    s'.membership g y =
      match e.body with
      | .membershipChange g' x (.add via) =>
          if g' = g ∧ x = y then some ⟨some e.author, e.timestamp, via⟩
          else s.membership g y
      | .membershipChange g' x (.remove cascade) =>
          if g' = g then s.groups[g]?.bind fun group =>
            (membersLeft group.members x cascade e.timestamp)[y]?
          else s.membership g y
      | _ => s.membership g y := by
  by_cases hmember : ∃ g' x action, e.body = .membershipChange g' x action
  · obtain ⟨g', x, action, hbody⟩ := hmember
    rw [mutate, hbody] at h
    rw [hbody]
    cases action with
    | add via =>
        dsimp only at h ⊢
        split at h
        · cases h
        · next target hgroup =>
            cases h
            rw [membership_insert, BTreeMap.getElem?_insert_ite]
            by_cases hg : g' = g
            · subst hg
              rw [if_pos rfl, membership, hgroup, Option.bind_some]
              by_cases hx : x = y
              · rw [if_pos hx, if_pos ⟨rfl, hx⟩]
              · rw [if_neg hx, if_neg fun hboth => hx hboth.2]
            · rw [if_neg hg, if_neg fun hboth => hg hboth.1]
    | remove cascade =>
        dsimp only at h ⊢
        obtain ⟨group, hgroup, rfl⟩ := removeMembership_left h
        rw [membership_insert]
        by_cases hg : g' = g
        · subst hg
          rw [if_pos rfl, if_pos rfl, hgroup]
          rfl
        · rw [if_neg hg, if_neg hg]
  · have hsame : s'.membership g y = s.membership g y := by
      by_cases hdefine : ∃ g caps, e.body = .defineGroup g caps
      · obtain ⟨g', caps, hbody⟩ := hdefine
        rw [mutate, hbody] at h
        cases h
        simp only [membership, BTreeMap.getElem?_insert_ite]
        split
        · next hg =>
            subst hg
            -- a redefinition keeps the members, a new group has none
            cases s.groups[g']? with
            | none => simp [Group.new]
            | some existing => rfl
        · rfl
      · rw [membership, mutate_groups h (fun g caps hb => hdefine ⟨g, caps, hb⟩)
          fun g x action hb => hmember ⟨g, x, action, hb⟩, membership]
    rw [hsame]
    split
    · next hbody => exact absurd ⟨_, _, _, hbody⟩ hmember
    · next hbody => exact absurd ⟨_, _, _, hbody⟩ hmember
    · rfl

/-! ## Uses -/

theorem mem_usedBy {inviteId : Hash} {x : PerNetworkIdentityId} :
    x ∈ s.usedBy inviteId ↔
      ∃ g r, s.membership g x = some r ∧ r.Carries inviteId := by
  have hinner : ∀ (g : Group) (used : BTreeSet PerNetworkIdentityId),
      x ∈ g.members.toList.foldl (fun used m =>
          if m.2.viaInvite.any fun p => decide (p.inviteId = inviteId) then
            used.insert m.1
          else used) used ↔
        x ∈ used ∨ ∃ r, g.members[x]? = some r ∧ r.Carries inviteId := by
    intro g used
    rw [BTreeSet.mem_foldl_insertIf]
    refine or_congr_right ⟨?_, ?_⟩
    · intro hgiven
      obtain ⟨m, hm, hcarries, rfl⟩ := hgiven
      refine ⟨m.2, (BTreeMap.mem_toList_iff _ _).1 hm, ?_⟩
      obtain ⟨p, hp, hid⟩ := Option.any_eq_true _ _ |>.1 hcarries
      exact ⟨p, hp, of_decide_eq_true hid⟩
    · intro hgiven
      obtain ⟨r, hr, p, hp, hid⟩ := hgiven
      refine ⟨(x, r), (BTreeMap.mem_toList_iff _ _).2 hr, ?_, rfl⟩
      exact Option.any_eq_true _ _ |>.2 ⟨p, hp, decide_eq_true hid⟩
  have houter : ∀ (gs : List (GroupId × Group))
      (used : BTreeSet PerNetworkIdentityId),
      x ∈ gs.foldl (fun used g => g.2.members.toList.foldl (fun used m =>
          if m.2.viaInvite.any fun p => decide (p.inviteId = inviteId) then
            used.insert m.1
          else used) used) used ↔
        x ∈ used ∨ ∃ g ∈ gs, ∃ r, g.2.members[x]? = some r ∧
          r.Carries inviteId := by
    intro gs
    induction gs with
    | nil => simp
    | cons g gs ih =>
        intro used
        rw [List.foldl_cons, ih, hinner, List.exists_mem_cons_iff, or_assoc]
  rw [usedBy, houter]
  constructor
  · intro hgiven
    rcases hgiven with hnone | ⟨g, hg, r, hr, hcarries⟩
    · simp at hnone
    · refine ⟨g.1, r, ?_, hcarries⟩
      rw [membership, (BTreeMap.mem_toList_iff _ _).1 hg]
      exact hr
  · intro hgiven
    obtain ⟨g, r, hr, hcarries⟩ := hgiven
    obtain ⟨group, hgroup, hr⟩ := Option.bind_eq_some_iff.1 hr
    exact .inr ⟨(g, group), (BTreeMap.mem_toList_iff _ _).2 hgroup, r, hr,
      hcarries⟩

/-- The entry takes the record of `y` in `g` away, or puts one in its place
that does not carry the provenance. -/
def Drops (s : GovernanceState) (e : LogEntry) (inviteId : Hash) (g : GroupId)
    (y : PerNetworkIdentityId) : Prop :=
  match e.body with
  | .membershipChange g' x (.remove cascade) =>
      g' = g ∧ ∃ group, s.groups[g]? = some group ∧
        y ∉ membersLeft group.members x cascade e.timestamp
  | .membershipChange g' x (.add via) =>
      g' = g ∧ x = y ∧ ¬ ∃ p, via = some p ∧ p.inviteId = inviteId
  | _ => False

/-- The entry leaves everyone who counts towards the invite's uses a record
that says so, and admits nobody new with its provenance once they are
used up. -/
structure RespectsUses (s : GovernanceState) (e : LogEntry) (inviteId : Hash)
    (maxUses : ℕ) : Prop where
  kept : ∀ y ∈ s.usedBy inviteId, ∃ g r, s.membership g y = some r ∧
    r.Carries inviteId ∧ ¬ s.Drops e inviteId g y
  spare : ∀ x, e.admitsBy inviteId = some x → x ∈ s.usedBy inviteId ∨
    s.inviteUseCount inviteId < maxUses

variable {inviteId : Hash}

/-- A record that is not dropped still carries the provenance. -/
theorem carries_of_not_drops (h : s.mutate C e = .ok s') {g : GroupId}
    {y : PerNetworkIdentityId} {r : MembershipRecord}
    (hr : s.membership g y = some r) (hcarries : r.Carries inviteId)
    (hdrops : ¬ s.Drops e inviteId g y) :
    ∃ r', s'.membership g y = some r' ∧ r'.Carries inviteId := by
  rw [membership_mutate h]
  rw [Drops] at hdrops
  split
  · next g' x via hbody =>
      rw [hbody] at hdrops
      split
      · next hsame =>
          refine ⟨_, rfl, not_not.1 fun hnot => hdrops ?_⟩
          exact ⟨hsame.1, hsame.2, hnot⟩
      · exact ⟨r, hr, hcarries⟩
  · next g' x cascade hbody =>
      rw [hbody] at hdrops
      split
      · next hsame =>
          obtain ⟨group, hgroup, hold⟩ := Option.bind_eq_some_iff.1 hr
          have hstays : y ∈ membersLeft group.members x cascade e.timestamp :=
            not_not.1 fun hnot => hdrops ⟨hsame, group, hgroup, hnot⟩
          obtain ⟨r', hr'⟩ := (BTreeMap.mem_iff_exists _ _).1 hstays
          have hrr := membersLeft_getElem? hr'
          rw [hold] at hrr
          cases hrr
          rw [hgroup, Option.bind_some]
          exact ⟨r, hr', hcarries⟩
      · exact ⟨r, hr, hcarries⟩
  · exact ⟨r, hr, hcarries⟩

/-- Uses only come from admissions with the provenance. -/
theorem usedBy_of_mutate (h : s.mutate C e = .ok s')
    {y : PerNetworkIdentityId} (hy : y ∈ s'.usedBy inviteId) :
    y ∈ s.usedBy inviteId ∨ e.admitsBy inviteId = some y := by
  obtain ⟨g, r, hr, hcarries⟩ := mem_usedBy.1 hy
  rw [membership_mutate h] at hr
  split at hr
  · next g' x via hbody =>
      split at hr
      · next hsame =>
          cases hr
          obtain ⟨p, rfl, hid⟩ := hcarries
          refine .inr (LogEntry.admitsBy_eq_some.2 ⟨g', p, ?_, hid⟩)
          rw [hbody, hsame.2]
      · exact .inl (mem_usedBy.2 ⟨g, r, hr, hcarries⟩)
  · next g' x cascade hbody =>
      split at hr
      · obtain ⟨group, hgroup, hr⟩ := Option.bind_eq_some_iff.1 hr
        refine .inl (mem_usedBy.2 ⟨g, r, ?_, hcarries⟩)
        rw [membership, hgroup]
        exact membersLeft_getElem? hr
      · exact .inl (mem_usedBy.2 ⟨g, r, hr, hcarries⟩)
  · exact .inl (mem_usedBy.2 ⟨g, r, hr, hcarries⟩)

/-- Whoever is admitted with the provenance counts. -/
theorem usedBy_of_admits (h : s.mutate C e = .ok s')
    {x : PerNetworkIdentityId} (hx : e.admitsBy inviteId = some x) :
    x ∈ s'.usedBy inviteId := by
  obtain ⟨g, p, hbody, hid⟩ := LogEntry.admitsBy_eq_some.1 hx
  refine mem_usedBy.2 ⟨g, ⟨some e.author, e.timestamp, some p⟩, ?_, p, rfl, hid⟩
  rw [membership_mutate h, hbody]
  exact if_pos ⟨rfl, rfl⟩

/-- What a respectful entry does to the uses: nobody is lost, only the one
it admits is new, and the limit holds. -/
theorem RespectsUses.mutate {maxUses : ℕ}
    (hrespects : s.RespectsUses e inviteId maxUses)
    (h : s.mutate C e = .ok s') (hle : s.inviteUseCount inviteId ≤ maxUses) :
    (∀ y ∈ s.usedBy inviteId, y ∈ s'.usedBy inviteId) ∧
      s'.inviteUseCount inviteId ≤ maxUses := by
  have hkept : ∀ y ∈ s.usedBy inviteId, y ∈ s'.usedBy inviteId := by
    intro y hy
    obtain ⟨g, r, hr, hcarries, hdrops⟩ := hrespects.kept y hy
    obtain ⟨r', hr', hcarries'⟩ := carries_of_not_drops h hr hcarries hdrops
    exact mem_usedBy.2 ⟨g, r', hr', hcarries'⟩
  refine ⟨hkept, ?_⟩
  rw [inviteUseCount, ← BTreeSet.ncard_setOf_mem] at hle ⊢
  cases hadmits : e.admitsBy inviteId with
  | none =>
      refine (Set.ncard_le_ncard (fun y hy => ?_)
        (BTreeSet.finite_setOf_mem _)).trans hle
      rcases usedBy_of_mutate h hy with hold | hnew
      · exact hold
      · rw [hadmits] at hnew
        cases hnew
  | some x =>
      have hsub : {y | y ∈ s'.usedBy inviteId} ⊆
          insert x {y | y ∈ s.usedBy inviteId} := by
        intro y hy
        rcases usedBy_of_mutate h hy with hold | hnew
        · exact .inr hold
        · rw [hadmits] at hnew
          cases hnew
          exact .inl rfl
      have hcard := Set.ncard_le_ncard hsub
        ((BTreeSet.finite_setOf_mem _).insert x)
      rcases hrespects.spare x hadmits with hin | hspare
      · rw [Set.insert_eq_of_mem (show x ∈ {y | y ∈ s.usedBy inviteId} from hin)]
          at hcard
        exact hcard.trans hle
      · rw [inviteUseCount, ← BTreeSet.ncard_setOf_mem] at hspare
        have hone := Set.ncard_insert_le x {y | y ∈ s.usedBy inviteId}
        omega

end GovernanceState

/-- A log over `S` that lacks one of its entries is smaller. -/
theorem GovernanceLog.Within.len_lt {C : Crypto} {S : Set LogEntry}
    {log : GovernanceLog} {e : LogEntry} (hlog : log.Within C S)
    (hfinite : S.Finite) (he : e ∈ S) (hnew : e.hash C ∉ log.entries) :
    log.len < S.ncard := by
  classical
  have hstored : ∀ x ∈ log.entries.toList.map Prod.snd,
      log.entries[x.hash C]? = some x := by
    intro x hx
    obtain ⟨m, hm, rfl⟩ := List.mem_map.1 hx
    have hget := (BTreeMap.mem_toList_iff _ _).1 hm
    rwa [hlog.wf.keyed _ _ hget]
  have hnodup : (e :: log.entries.toList.map Prod.snd).Nodup := by
    refine List.nodup_cons.2 ⟨fun hin => hnew ?_, ?_⟩
    · exact (BTreeMap.mem_iff_exists _ _).2 ⟨e, hstored e hin⟩
    · refine List.pairwise_map.2 (List.Pairwise.imp_of_mem ?_
        (BTreeMap.toList_pairwise log.entries))
      intro a b ha hb hlt heq
      refine hlt.ne ?_
      rw [← hlog.wf.keyed _ _ ((BTreeMap.mem_toList_iff _ _).1 ha), heq,
        hlog.wf.keyed _ _ ((BTreeMap.mem_toList_iff _ _).1 hb)]
  have hsub : ((e :: log.entries.toList.map Prod.snd).toFinset : Set LogEntry) ⊆
      S := by
    intro x hx
    rw [List.coe_toFinset] at hx
    rcases List.mem_cons.1 hx with rfl | hx
    · exact he
    · exact hlog.mem x ⟨_, hstored x hx⟩
  have hcard := Set.ncard_le_ncard hsub hfinite
  rw [Set.ncard_coe_finset, List.toFinset_card_of_nodup hnodup,
    List.length_cons, List.length_map, Std.ExtTreeMap.length_toList] at hcard
  exact hcard

/-! ## Runs of a node -/

namespace JoinNode

variable {C : Crypto} {S : Set LogEntry} {i : Invite} {node : JoinNode}
  {ever : Set PerNetworkIdentityId}

/-- Whom the canonical chain admits with the invite's provenance. A chain
that does not replay admits nobody. -/
def admittedBy (C : Crypto) (i : Invite) (node : JoinNode) :
    Set PerNetworkIdentityId :=
  {x | (∃ s, node.log.replayCanonical C = .ok s) ∧
    x ∈ node.log.canonicalEntries.filterMap
      (LogEntry.admitsBy (i.inviteId C))}

/-- A run of one node: answers to requests that present `i`, and other
entries after which the log still replays. `ever` collects whom any of its
states admitted with the invite's provenance. The entries are of `S`, and
those that no answer signed meet `ok`. -/
inductive InviteRun (C : Crypto) (S : Set LogEntry) (i : Invite)
    (ok : GovernanceLog → LogEntry → Prop) (start : JoinNode) :
    JoinNode → Set PerNetworkIdentityId → Prop where
  | start : InviteRun C S i ok start start (start.admittedBy C i)
  | join {node : JoinNode} {ever : Set PerNetworkIdentityId}
      {validKey : Bytes 32 → Bool} (request : JoinRequest)
      (identity : PerNetworkIdentity C validKey) (now : Timestamp) :
      InviteRun C S i ok start node ever → request.invite = i →
      node.admission request identity now ∈ S →
      InviteRun C S i ok start (node.decideJoin C request identity now).2
        (ever ∪ (node.decideJoin C request identity now).2.admittedBy C i)
  | entry {node next : JoinNode} {ever : Set PerNetworkIdentityId}
      {e : LogEntry} {hash : Hash} :
      InviteRun C S i ok start node ever → e ∈ S → ok node.log e →
      node.appendEntry C e = .ok (hash, next) →
      (∃ s, next.log.replayCanonical C = .ok s) →
      InviteRun C S i ok start next (ever ∪ next.admittedBy C i)

/-- The entry leaves the canonical chain alone, or extends it and respects
the uses of the invite in the state it is applied to. -/
def RespectsInvite (C : Crypto) (i : Invite) (log : GovernanceLog)
    (e : LogEntry) : Prop :=
  (log.inserted C e).canonicalChain = log.canonicalChain ∨
    ((log.inserted C e).canonicalChain = log.canonicalChain ++ [e.hash C] ∧
      ∀ s, log.replayCanonical C = .ok s →
        s.RespectsUses e (i.inviteId C) i.maxUses.toNat)

/-- What every state of a run satisfies: whoever was ever admitted still
counts, if the log replays, and there are few enough of them. -/
structure Tracks (C : Crypto) (S : Set LogEntry) (i : Invite) (node : JoinNode)
    (ever : Set PerNetworkIdentityId) : Prop where
  within : node.log.Within C S
  founded : node.log.canonicalChain ≠ []
  finite : ever.Finite
  bounded : ever.ncard ≤ i.maxUses.toNat
  counted : ∀ s, node.log.replayCanonical C = .ok s →
    (∀ x ∈ ever, x ∈ s.usedBy (i.inviteId C)) ∧
      s.inviteUseCount (i.inviteId C) ≤ i.maxUses.toNat
  current : node.admittedBy C i ⊆ ever

/-- Where everyone ever admitted counts, the count bounds them. -/
theorem bounded_of_counted {s : GovernanceState} {inviteId : Hash} {n : ℕ}
    (hcounted : ∀ x ∈ ever, x ∈ s.usedBy inviteId)
    (hle : s.inviteUseCount inviteId ≤ n) : ever.Finite ∧ ever.ncard ≤ n := by
  have hfinite := BTreeSet.finite_setOf_mem (s.usedBy inviteId)
  refine ⟨hfinite.subset hcounted, ?_⟩
  rw [GovernanceState.inviteUseCount, ← BTreeSet.ncard_setOf_mem] at hle
  exact (Set.ncard_le_ncard hcounted hfinite).trans hle

/-- A node whose canonical chain has not changed is in the same position. -/
theorem Tracks.of_chain (h : Tracks C S i node ever) {next : JoinNode}
    (hwithin : next.log.Within C S)
    (hchain : next.log.canonicalChain = node.log.canonicalChain)
    (hentries : next.log.canonicalEntries = node.log.canonicalEntries) :
    Tracks C S i next (ever ∪ next.admittedBy C i) := by
  have hreplay : next.log.replayCanonical C = node.log.replayCanonical C :=
    congrArg (GovernanceState.replay C) hentries
  have hadmitted : next.admittedBy C i = node.admittedBy C i := by
    rw [admittedBy, admittedBy, hreplay, hentries]
  rw [hadmitted, Set.union_eq_self_of_subset_right h.current]
  refine ⟨hwithin, hchain ▸ h.founded, h.finite, h.bounded, ?_, ?_⟩
  · rw [hreplay]
    exact h.counted
  · rw [hadmitted]
    exact h.current

/-- A node with the same log is. -/
theorem Tracks.of_log (h : Tracks C S i node ever) {next : JoinNode}
    (hlog : next.log = node.log) :
    Tracks C S i next (ever ∪ next.admittedBy C i) :=
  h.of_chain (hlog ▸ h.within) (by rw [hlog]) (by rw [hlog])

/-- An entry that extends the chain and respects the uses. -/
theorem Tracks.grow (h : Tracks C S i node ever) {next : JoinNode}
    {e : LogEntry} (hnew : e.hash C ∉ node.log.entries)
    (hlog : next.log = node.log.inserted C e) (hwithin : next.log.Within C S)
    (hgrow : (node.log.inserted C e).canonicalChain =
      node.log.canonicalChain ++ [e.hash C])
    (hrespects : ∀ s, node.log.replayCanonical C = .ok s →
      s.RespectsUses e (i.inviteId C) i.maxUses.toNat) :
    Tracks C S i next (ever ∪ next.admittedBy C i) := by
  have hentries := h.within.wf.canonicalEntries_grow hnew hgrow
  have hfounded : next.log.canonicalChain ≠ [] := by
    rw [hlog, hgrow]
    simp
  by_cases hreplays : ∃ s, next.log.replayCanonical C = .ok s
  · obtain ⟨s', hs'⟩ := hreplays
    -- the chain replayed up to the entry, so it replayed before
    obtain ⟨s, hs⟩ : ∃ s, node.log.replayCanonical C = .ok s := by
      have hafter : GovernanceState.replay C (next.log.canonicalEntries) =
          .ok s' := hs'
      rw [hlog, hentries] at hafter
      obtain ⟨a, ha⟩ := List.exists_mem_of_ne_nil _ h.founded
      obtain ⟨x, hx⟩ := (BTreeMap.mem_iff_exists _ _).1
        (h.within.wf.mem_of_canonical ha)
      have hne : node.log.canonicalEntries ≠ [] :=
        List.ne_nil_of_mem (List.mem_filterMap.2 ⟨a, ha, hx⟩)
      obtain ⟨s, hs, -⟩ := (GovernanceState.replay_snoc hne).1 hafter
      exact ⟨s, hs⟩
    have happ : s.apply C e = .ok s' := by
      rw [hlog] at hs'
      exact (h.within.wf.replayCanonical_grow hnew hgrow hs).1 hs'
    have hmut := (GovernanceState.apply_ok happ).mutated
    obtain ⟨hcounted, hle⟩ := h.counted s hs
    obtain ⟨hkept, hle'⟩ := (hrespects s hs).mutate hmut hle
    have hall : ∀ x ∈ ever ∪ next.admittedBy C i,
        x ∈ s'.usedBy (i.inviteId C) := by
      intro x hx
      rcases hx with hx | ⟨-, hx⟩
      · exact hkept x (hcounted x hx)
      · rw [hlog, hentries, List.filterMap_append, List.mem_append] at hx
        rcases hx with hx | hx
        · exact hkept x (hcounted x (h.current ⟨⟨s, hs⟩, hx⟩))
        · obtain ⟨a, ha, hadmits⟩ := List.mem_filterMap.1 hx
          rw [List.mem_singleton] at ha
          subst ha
          exact GovernanceState.usedBy_of_admits hmut hadmits
    obtain ⟨hfinite, hbounded⟩ := bounded_of_counted hall hle'
    refine ⟨hwithin, hfounded, hfinite, hbounded, fun t ht => ?_,
      Set.subset_union_right⟩
    rw [hs'] at ht
    cases ht
    exact ⟨hall, hle'⟩
  · have hnobody : next.admittedBy C i = ∅ :=
      Set.eq_empty_of_forall_notMem fun x hx => hreplays hx.1
    rw [hnobody, Set.union_empty]
    refine ⟨hwithin, hfounded, h.finite, h.bounded, fun t ht => ?_, ?_⟩
    · exact absurd ⟨t, ht⟩ hreplays
    · rw [hnobody]
      exact Set.empty_subset _

/-- The log after an answer: the admission was appended, or nothing
changed. -/
theorem decideJoin_log {validKey : Bytes 32 → Bool} (node : JoinNode)
    (request : JoinRequest) (identity : PerNetworkIdentity C validKey)
    (now : Timestamp) :
    (node.decideJoin C request identity now).2.log = node.log ∨
      ∃ s hash, node.log.replayCanonical C = .ok s ∧
        s.inviteUseCount (request.invite.inviteId C) <
          request.invite.maxUses.toNat ∧
        node.log.insert C (node.admission request identity now) =
          .ok (hash, (node.decideJoin C request identity now).2.log) := by
  rw [decideJoin]
  split
  · exact .inl rfl
  · next s hstate =>
      split
      · exact .inl rfl
      · next provenance hvalid =>
          obtain ⟨rfl, hspare⟩ := Invite.validate_ok hvalid
          split
          · split
            · next hash log hins =>
                exact .inr ⟨s, hash, Run.toOption_eq_some.1 hstate, hspare, hins⟩
            · exact .inl rfl
          · exact .inl rfl

/-- An admission by the invite drops no use of it. -/
theorem admission_respects {validKey : Bytes 32 → Bool} {request : JoinRequest}
    {identity : PerNetworkIdentity C validKey} {now : Timestamp}
    {s : GovernanceState}
    (hspare : s.inviteUseCount (request.invite.inviteId C) <
      request.invite.maxUses.toNat) :
    s.RespectsUses (node.admission request identity now)
      (request.invite.inviteId C) request.invite.maxUses.toNat where
  kept := by
    intro y hy
    obtain ⟨g, r, hr, hcarries⟩ := GovernanceState.mem_usedBy.1 hy
    refine ⟨g, r, hr, hcarries, fun hdrops => ?_⟩
    obtain ⟨-, -, hnot⟩ := hdrops
    exact hnot ⟨_, rfl, rfl⟩
  spare _ _ := .inr hspare

theorem Tracks.join (h : Tracks C S i node ever) (hfree : CollisionFree C S)
    (hfinite : S.Finite) (hcard : S.ncard < 2 ^ 32)
    {validKey : Bytes 32 → Bool} {request : JoinRequest}
    {identity : PerNetworkIdentity C validKey} {now : Timestamp}
    (hinvite : request.invite = i)
    (hmem : node.admission request identity now ∈ S) :
    Tracks C S i (node.decideJoin C request identity now).2
      (ever ∪ (node.decideJoin C request identity now).2.admittedBy C i) := by
  subst hinvite
  rcases decideJoin_log node request identity now with
    hsame | ⟨s, hash, hs, hspare, hins⟩
  · exact h.of_log hsame
  · have hfresh : ∀ x, node.log.Stored x →
        x.hash C = (node.admission request identity now).hash C →
          x = node.admission request identity now :=
      fun x hx heq => hfree (h.within.mem x hx) hmem heq
    obtain ⟨hnew, -⟩ := admission_new h.within.wf hfresh hs
    have hlen : node.log.len + 1 < 2 ^ 32 :=
      lt_of_le_of_lt (h.within.len_lt hfinite hmem hnew) hcard
    obtain ⟨log, hlands, -, hgrow, -⟩ := admission_lands h.within.wf hfresh hlen hs
    rw [hins] at hlands
    cases hlands
    obtain ⟨-, -, hlog⟩ := GovernanceLog.insert_ok_iff.1 hins
    refine h.grow hnew hlog (h.within.insert hfree hmem hins) (hlog ▸ hgrow) ?_
    intro s' hs'
    rw [hs] at hs'
    cases hs'
    exact admission_respects hspare

theorem appendEntry_ok {e : LogEntry} {hash : Hash} {next : JoinNode}
    (h : node.appendEntry C e = .ok (hash, next)) :
    node.log.insert C e = .ok (hash, next.log) := by
  obtain ⟨⟨hash', log⟩, hins, h⟩ := Run.bind_ok.1 h
  cases h
  rw [hins]
  rw [reconcileWaitingRoom]
  split
  · rfl
  · split <;> rfl

theorem Tracks.entry (h : Tracks C S i node ever) (hfree : CollisionFree C S)
    {e : LogEntry} {hash : Hash} {next : JoinNode} (hmem : e ∈ S)
    (hok : RespectsInvite C i node.log e)
    (happend : node.appendEntry C e = .ok (hash, next)) :
    Tracks C S i next (ever ∪ next.admittedBy C i) := by
  have hins := appendEntry_ok happend
  have hwithin := h.within.insert hfree hmem hins
  obtain ⟨-, -, hlog⟩ := GovernanceLog.insert_ok_iff.1 hins
  by_cases hstored : e.hash C ∈ node.log.entries
  · obtain ⟨x, hx⟩ := (BTreeMap.mem_iff_exists _ _).1 hstored
    have hxe : x = e :=
      hfree (h.within.mem x ⟨_, hx⟩) hmem (h.within.wf.keyed _ _ hx)
    refine h.of_log (hlog.trans ?_)
    exact GovernanceLog.insert_stored h.within.wf (hxe ▸ hx)
  · rcases hok with hsame | ⟨hgrow, hrespects⟩
    · refine h.of_chain hwithin (hlog ▸ hsame) ?_
      rw [hlog, GovernanceLog.canonicalEntries, hsame]
      exact h.within.wf.canonicalEntries_inserted hstored
    · exact h.grow hstored hlog hwithin hgrow hrespects

/-- An invite admits at most as many identities as it says. The log starts
out as any that `insert` and `reconcile` lead to and that replays, with
everyone its chain admitted by the invite still counted and few enough of
them. From there on requests that present the invite are answered by
anybody, in any order and mixed with other entries that replay accepts, each
of which leaves the canonical chain alone or extends it without dropping a
use or adding one over the limit. Then no state of the run has seen more than
`max_uses` identities admitted with the invite's provenance. -/
theorem invite_uses_bounded {calls : List GovernanceLog.Call}
    {start : JoinNode} {s₀ : GovernanceState} (hfree : CollisionFree C S)
    (hfinite : S.Finite) (hcard : S.ncard < 2 ^ 32)
    (hlog : start.log = .run C calls)
    (hcalls : ∀ e, .insert e ∈ calls → e ∈ S)
    (hs : start.log.replayCanonical C = .ok s₀)
    (hcounted : ∀ x ∈ start.admittedBy C i, x ∈ s₀.usedBy (i.inviteId C))
    (hle : s₀.inviteUseCount (i.inviteId C) ≤ i.maxUses.toNat)
    (hrun : InviteRun C S i (RespectsInvite C i) start node ever) :
    ever.Finite ∧ ever.ncard ≤ i.maxUses.toNat := by
  have htracks : Tracks C S i node ever := by
    induction hrun with
    | start =>
        obtain ⟨hfin, hbounded⟩ := bounded_of_counted hcounted hle
        refine ⟨hlog ▸ GovernanceLog.within_run hfree hcalls,
          GovernanceLog.canonicalChain_ne_nil hs, hfin, hbounded,
          fun s hs' => ?_, subset_rfl⟩
        rw [hs] at hs'
        cases hs'
        exact ⟨hcounted, hle⟩
    | join request identity now _ hinvite hmem ih =>
        exact ih.join hfree hfinite hcard hinvite hmem
    | entry _ hmem hok happend _ ih => exact ih.entry hfree hmem hok happend
  exact ⟨htracks.finite, htracks.bounded⟩

/-! ### A use given back -/

/-- The founder's node after it let identity 5 in by the one-use invite. -/
def afterFive : JoinNode :=
  (doorNode.decideJoin .sample (knock 5) (signer 1 9) ⟨10⟩).2

/-- The founder removes identity 5 again. -/
def removesFive : LogEntry :=
  Sample.entry 10 (some 9) 11 1
    (.membershipChange GroupId.everyone (Sample.identity 5) (.remove none))

/-- The founder's node after the removal. -/
def afterRemoval : JoinNode :=
  match afterFive.appendEntry .sample removesFive with
  | .ok (_, node) => node
  | .error _ => afterFive

/-- And after the same invite let identity 6 in. -/
def afterSix : JoinNode :=
  (afterRemoval.decideJoin .sample (knock 6) (signer 1 12) ⟨20⟩).2

/-- All entries of the story. -/
def giveBack : List LogEntry :=
  openDoor ++ [doorNode.admission (knock 5) (signer 1 9) ⟨10⟩, removesFive,
    afterRemoval.admission (knock 6) (signer 1 12) ⟨20⟩]

theorem admittedBy_finite (C : Crypto) (i : Invite) (node : JoinNode) :
    (node.admittedBy C i).Finite :=
  (List.finite_toSet _).subset fun _ hx => hx.2

theorem mem_admittedBy_of_check {x : PerNetworkIdentityId}
    (h : (Run.okAnd (node.log.replayCanonical C) (fun _ => true) &&
      decide (x ∈ node.log.canonicalEntries.filterMap
        (LogEntry.admitsBy (i.inviteId C)))) = true) :
    x ∈ node.admittedBy C i := by
  obtain ⟨hreplays, hmem⟩ := Bool.and_eq_true_iff.1 h
  obtain ⟨s, hs, -⟩ := Run.okAnd_iff.1 hreplays
  exact ⟨⟨s, hs⟩, of_decide_eq_true hmem⟩

theorem giveBack_apart : CollisionFree .sample {e | e ∈ giveBack} :=
  collisionFree_of_nodup (by decide +kernel)

/-- One answer under the one-use invite. -/
theorem invite_uses_bounded_once :
    ∃ ever, InviteRun .sample {e | e ∈ giveBack} bearerInvite
        (RespectsInvite .sample bearerInvite) doorNode afterFive ever ∧
      ever.ncard ≤ 1 := by
  have hcheck : Run.okAnd (doorNode.log.replayCanonical .sample) (fun s =>
      decide (s.inviteUseCount (bearerInvite.inviteId .sample) = 0) &&
        decide (doorNode.log.canonicalEntries.filterMap
          (LogEntry.admitsBy (bearerInvite.inviteId .sample)) = [])) = true := by
    decide +kernel
  obtain ⟨s, hs, hcheck⟩ := Run.okAnd_iff.1 hcheck
  simp only [Bool.and_eq_true, decide_eq_true_eq] at hcheck
  obtain ⟨hunused, hnobody⟩ := hcheck
  have hrun : InviteRun .sample {e | e ∈ giveBack} bearerInvite
      (RespectsInvite .sample bearerInvite) doorNode afterFive _ :=
    .join (knock 5) (signer 1 9) ⟨10⟩ .start rfl (by simp [giveBack])
  refine ⟨_, hrun, (invite_uses_bounded giveBack_apart (List.finite_toSet _) ?_
    rfl ?_ hs ?_ (by rw [hunused]; exact Nat.zero_le _) hrun).2⟩
  · rw [← List.coe_toFinset, Set.ncard_coe_finset]
    exact lt_of_le_of_lt (List.toFinset_card_le _) (by decide +kernel)
  · intro e he
    obtain ⟨x, hx, heq⟩ := List.mem_map.1 he
    cases heq
    exact List.mem_append_left _ hx
  · intro x hx
    have hin := hx.2
    rw [hnobody] at hin
    cases hin

/-- The invite is for one, and two were let in. -/
theorem invite_admits_two :
    CollisionFree .sample {e | e ∈ giveBack} ∧
      (∃ s, doorNode.log.replayCanonical .sample = .ok s ∧
        s.inviteUseCount (bearerInvite.inviteId .sample) = 0) ∧
      ∃ ever, InviteRun .sample {e | e ∈ giveBack} bearerInvite
          (fun _ _ => True) doorNode afterSix ever ∧
        bearerInvite.maxUses.toNat < ever.ncard := by
  have hstart : Run.okAnd (doorNode.log.replayCanonical .sample) (fun s =>
      decide (s.inviteUseCount (bearerInvite.inviteId .sample) = 0)) = true := by
    decide +kernel
  obtain ⟨s, hs, hunused⟩ := Run.okAnd_iff.1 hstart
  refine ⟨giveBack_apart, ⟨s, hs, of_decide_eq_true hunused⟩, ?_⟩
  have happends : Run.okAnd (afterFive.appendEntry .sample removesFive)
      (fun _ => true) = true := by
    decide +kernel
  obtain ⟨⟨hash, next⟩, happend, -⟩ := Run.okAnd_iff.1 happends
  have hnext : next = afterRemoval := by
    rw [afterRemoval, happend]
  have hreplays : Run.okAnd (afterRemoval.log.replayCanonical .sample)
      (fun _ => true) = true := by
    decide +kernel
  obtain ⟨s', hs', -⟩ := Run.okAnd_iff.1 hreplays
  have hfive : InviteRun .sample {e | e ∈ giveBack} bearerInvite
      (fun _ _ => True) doorNode afterFive _ :=
    .join (knock 5) (signer 1 9) ⟨10⟩ .start rfl (by simp [giveBack])
  have hremoval : InviteRun .sample {e | e ∈ giveBack} bearerInvite
      (fun _ _ => True) doorNode afterRemoval _ :=
    .entry hfive (by simp [giveBack]) trivial (hnext ▸ happend) ⟨s', hs'⟩
  refine ⟨_, .join (knock 6) (signer 1 12) ⟨20⟩ hremoval rfl
    (by simp [giveBack]), ?_⟩
  have hfinite := fun node : JoinNode =>
    admittedBy_finite .sample bearerInvite node
  refine (Set.one_lt_ncard_iff ((((hfinite _).union (hfinite _)).union
    (hfinite _)).union (hfinite _))).2 ⟨Sample.identity 5, Sample.identity 6,
      .inl (.inl (.inr ?_)), .inr ?_, by decide +kernel⟩
  · exact mem_admittedBy_of_check (by decide +kernel)
  · exact mem_admittedBy_of_check (by decide +kernel)

end JoinNode

end Intranet
