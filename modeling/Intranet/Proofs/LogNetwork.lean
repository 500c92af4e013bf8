import Intranet.Lib.Gossip
import Intranet.Lib.Turns
import Intranet.Proofs.Sync
import Intranet.Ref.LogNetwork

/-!
# Logs that gossip

An answer is computed from one state of two logs and arrives at another. What
makes that harmless is that logs only grow. A response goes through whole if
each entry's parent is held by the receiver or comes before it (`Linked`), and
more held by either side leaves that so. Every message under way is of this
kind (`Genuine`), however old it is.

For convergence an exchange is followed from its first message to its last.
A log that lacks an entry of a peer's cannot come out of one as it went in:
of the heads it was told of it lacked one, and it was sent that.
-/

namespace Intranet

namespace GovernanceLog

variable {C : Crypto} {S : Set LogEntry} {A B A' B' log : GovernanceLog}
  {h p x : Hash}

/-! ## What goes through -/

/-- At most one entry is without a parent. -/
def OneFounding (S : Set LogEntry) : Prop :=
  ∀ e ∈ S, ∀ e' ∈ S, e.parent = none → e'.parent = none → e = e'

/-- Entries of `B` under these hashes can be inserted into `A` one after the
other. -/
structure Linked (B A : GovernanceLog) (hs : List Hash) : Prop where
  mem : ∀ h ∈ hs, h ∈ B.entries
  parent : ∀ pre h post, hs = pre ++ h :: post → ∀ p,
    B.parentOf h = some p → p ∈ A.entries ∨ p ∈ pre

theorem Linked.mono {hs : List Hash} (h : Linked B A hs) (hB : Extends B B')
    (hA : Extends A A') : Linked B' A' hs := by
  refine ⟨fun x hx => hB.mem (h.mem x hx), fun pre x post hsplit p hp => ?_⟩
  have hx : x ∈ hs := by
    rw [hsplit]
    exact List.mem_append_right _ List.mem_cons_self
  rw [hB.parentOf_eq (h.mem x hx)] at hp
  exact (h.parent pre x post hsplit p hp).imp hA.mem id

theorem Extends.filterMap_eq (hB : Extends B B') {hs : List Hash}
    (hmem : ∀ h ∈ hs, h ∈ B.entries) :
    (hs.filterMap fun h => B'.entries[h]?) =
      hs.filterMap fun h => B.entries[h]? :=
  List.filterMap_congr fun h hh => hB.getElem?_eq (hmem h hh)

/-- An entry whose parent is held is accepted. -/
theorem Within.accepts {e : LogEntry} (hA : Within C S A) (hB : Within C S B)
    (hfounding : OneFounding S) (he : B.entries[h]? = some e)
    (hparent : ∀ p, e.parent = some p → p ∈ A.entries) : A.Accepts C e := by
  refine ⟨hB.wf.signed h e he, ?_⟩
  cases hp : e.parent with
  | none =>
      refine ⟨hB.wf.founding h e he hp, fun root hroot => ?_⟩
      obtain ⟨hmem, hnone⟩ := (hA.wf.root_iff root).1 hroot
      obtain ⟨e', he'⟩ := (BTreeMap.mem_iff_exists _ _).1 hmem
      have hp' : e'.parent = none := (parentOf_of_getElem? he').symm.trans hnone
      rw [hfounding e (hB.mem e ⟨h, he⟩) e' (hA.mem e' ⟨root, he'⟩) hp hp']
      exact (hA.wf.keyed root e' he').symm
  | some p => exact hparent p hp

/-- A response that is linked goes through whole. -/
theorem Within.receive_whole (hB : Within C S B) (hfree : CollisionFree C S)
    (hfounding : OneFounding S) {hs : List Hash} (hA : Within C S A)
    (hlinked : Linked B A hs) (accepted : ℕ) :
    ∃ A', receive C (hs.filterMap fun h => B.entries[h]?) A accepted 0 =
        (A', accepted + hs.length, 0) ∧
      Within C S A' ∧ Extends A A' ∧ A'.finalized = A.finalized ∧
      ∀ x, x ∈ A'.entries ↔ x ∈ A.entries ∨ x ∈ hs := by
  induction hs generalizing A accepted with
  | nil => exact ⟨A, rfl, hA, Extends.refl A, rfl, by simp⟩
  | cons h hs ih =>
      obtain ⟨e, he⟩ := (BTreeMap.mem_iff_exists _ _).1
        (hlinked.mem h List.mem_cons_self)
      have hkey := hB.wf.keyed h e he
      have hacc : A.Accepts C e := hA.accepts hB hfounding he fun p hp =>
        (hlinked.parent [] h hs rfl p
          ((parentOf_of_getElem? he).trans hp)).resolve_right List.not_mem_nil
      have hins : A.insert C e = .ok (e.hash C, A.inserted C e) :=
        insert_ok_iff.2 ⟨hacc, rfl, rfl⟩
      have hin : e ∈ S := hB.mem e ⟨h, he⟩
      have hstep : Extends A (A.inserted C e) := by
        have htry := hA.extends_tryInsert hfree hin
        rwa [GovernanceLog.tryInsert, hins] at htry
      have hmem : ∀ x, x ∈ (A.inserted C e).entries ↔
          x = h ∨ x ∈ A.entries := by
        intro x
        rw [mem_inserted, hkey, eq_comm]
      have hrest : Linked B (A.inserted C e) hs := by
        refine ⟨fun x hx => hlinked.mem x (List.mem_cons_of_mem h hx), ?_⟩
        intro pre x post hsplit p hp
        rcases hlinked.parent (h :: pre) x post (by rw [hsplit]; rfl) p hp with
          hheld | hpre
        · exact .inl ((hmem p).2 (.inr hheld))
        · rcases List.mem_cons.1 hpre with rfl | hpre
          · exact .inl ((hmem p).2 (.inl rfl))
          · exact .inr hpre
      obtain ⟨A', hrec, hwithin, hext, hfinal, hiff⟩ :=
        ih (hA.insert hfree hin hins) hrest (accepted + 1)
      refine ⟨A', ?_, hwithin, hstep.trans hext,
        hfinal.trans inserted_finalized, fun x => ?_⟩
      · rw [List.filterMap_cons, he]
        dsimp only
        rw [receive, hins]
        dsimp only
        rw [hrec, List.length_cons, Nat.add_assoc, Nat.add_comm 1]
      · rw [hiff, hmem, List.mem_cons]
        tauto

/-! ## Answers -/

/-- Where an entry above held ones is held. -/
theorem Within.above_held (hA : Within C S A) (hB : Within C S B)
    (hfree : CollisionFree C S) {held : List Hash}
    (hheld : ∀ a ∈ held, a ∈ A.entries) (hx : x ∈ B.excludedBy held) :
    x ∈ A.entries := by
  obtain ⟨a, ha, habove⟩ := mem_excludedBy.1 hx
  exact hA.mem_of_above hB hfree (hB.wf.mem_ancestry.1 habove) (hheld a ha)

/-- An answer to a fetch is linked, and if it was not cut it holds all that was
wanted and is lacking. -/
theorem Within.answer_fetch (hA : Within C S A) (hB : Within C S B)
    (hfree : CollisionFree C S) {wanted held : List Hash}
    (hwanted : ∀ w ∈ wanted, w ∈ B.entries)
    (hheld : ∀ a ∈ held, a ∈ A.entries) :
    ∃ hs cut, B.answerSync (.fetch wanted held) =
        .entries (hs.filterMap fun h => B.entries[h]?) cut ∧
      Linked B A hs ∧
      (cut = false → ∀ w ∈ wanted, w ∉ A.entries → w ∈ hs) := by
  have hmem : ∀ x, x ∈ B.orderedHashes wanted held ↔
      (∃ w ∈ wanted, Walk.Above B.parentOf x w) ∧ x ∉ B.excludedBy held := by
    intro x
    rw [mem_orderedHashes, mem_neededFor]
    constructor
    · intro hx
      obtain ⟨w, hw, -, habove, hnot⟩ := hx
      exact ⟨⟨w, hw, hB.wf.mem_ancestry.1 habove⟩, hnot⟩
    · intro hx
      obtain ⟨⟨w, hw, habove⟩, hnot⟩ := hx
      exact ⟨w, hw, hwanted w hw, hB.wf.mem_ancestry.2 habove, hnot⟩
  refine ⟨(B.orderedHashes wanted held).take maxEntriesPerResponse,
    decide (maxEntriesPerResponse < (B.orderedHashes wanted held).length),
    ?_, ⟨fun x hx => ?_, ?_⟩, ?_⟩
  · show SyncResponse.entries
      (B.ancestorsFirst wanted held maxEntriesPerResponse).1
      (B.ancestorsFirst wanted held maxEntriesPerResponse).2 = _
    rw [ancestorsFirst_eq]
  · obtain ⟨⟨w, hw, habove⟩, -⟩ := (hmem x).1 (List.mem_of_mem_take hx)
    exact hB.wf.mem_of_above habove (hwanted w hw)
  · -- a parent that is sent too has less depth, so it comes before
    intro pre x post hsplit p hp
    have hfull : B.orderedHashes wanted held = pre ++ x :: (post ++
        (B.orderedHashes wanted held).drop maxEntriesPerResponse) := by
      conv_lhs => rw [← List.take_append_drop maxEntriesPerResponse
        (B.orderedHashes wanted held), hsplit]
      simp
    have hx : x ∈ B.orderedHashes wanted held := by
      rw [hfull]
      exact List.mem_append_right _ List.mem_cons_self
    obtain ⟨⟨w, hw, habove⟩, -⟩ := (hmem x).1 hx
    by_cases hout : p ∈ B.excludedBy held
    · exact .inl (hA.above_held hB hfree hheld hout)
    · have hsent : p ∈ B.orderedHashes wanted held := (hmem p).2
        ⟨⟨w, hw, .trans (Walk.above_iff.2 (.inr ⟨p, hp, .refl p⟩)) habove⟩,
          hout⟩
      have hsorted := orderedHashes_pairwise B wanted held
      have hlt := hB.wf.depthKey_lt hp
      rw [hfull, List.mem_append, List.mem_cons] at hsent
      rw [hfull, List.pairwise_append, List.pairwise_cons] at hsorted
      rcases hsent with hpre | rfl | hlater
      · exact .inr hpre
      · exact absurd hlt (lt_irrefl _)
      · exact absurd (hsorted.2.1.1 p hlater) (lt_asymm hlt)
  · intro hwhole w hw hlacks
    rw [decide_eq_false_iff_not, not_lt] at hwhole
    rw [List.take_of_length_le hwhole]
    exact (hmem w).2 ⟨⟨w, hw, .refl w⟩, fun hout =>
      hlacks (hA.above_held hB hfree hheld hout)⟩

theorem Within.stored_of_mem (hA : Within C S A) (hB : Within C S B)
    (hfree : CollisionFree C S) (hmem : ∀ h, h ∈ A.entries → h ∈ B.entries)
    {e : LogEntry} (he : A.Stored e) : B.Stored e := by
  obtain ⟨h, hh⟩ := he
  obtain ⟨e', he'⟩ := (BTreeMap.mem_iff_exists _ _).1
    (hmem h ((BTreeMap.mem_iff_exists _ _).2 ⟨e, hh⟩))
  have heq : e = e' := hfree (hA.mem e ⟨h, hh⟩) (hB.mem e' ⟨h, he'⟩)
    ((hA.wf.keyed h e hh).trans (hB.wf.keyed h e' he').symm)
  exact ⟨h, heq ▸ he'⟩

/-- Logs under the same hashes are the same log. -/
theorem Within.eq_of_mem_iff (hA : Within C S A) (hB : Within C S B)
    (hfree : CollisionFree C S) (hmem : ∀ h, h ∈ A.entries ↔ h ∈ B.entries)
    (hfinal : A.finalized = B.finalized) : A = B :=
  hA.wf.eq_of_stored hB.wf (fun _ => ⟨hA.stored_of_mem hB hfree
    fun h => (hmem h).1, hB.stored_of_mem hA hfree fun h => (hmem h).2⟩) hfinal

/-! ## What is under way -/

/-- Messages from one log to another, made of both as they were once. -/
inductive Genuine (A B : GovernanceLog) : SyncMessage → Prop
  | askHeads : Genuine A B (.request .heads)
  | heads {heads : List Hash} (hheads : ∀ w ∈ heads, w ∈ A.entries) :
      Genuine A B (.response (.heads heads))
  | fetch {wanted held : List Hash} (hwanted : ∀ w ∈ wanted, w ∈ B.entries)
      (hheld : ∀ a ∈ held, a ∈ A.entries) :
      Genuine A B (.request (.fetch wanted held))
  | entries {hs : List Hash} (cut : Bool) (hlinked : Linked A B hs) :
      Genuine A B (.response
        (.entries (hs.filterMap fun h => A.entries[h]?) cut))

theorem Genuine.mono {message : SyncMessage} (h : Genuine A B message)
    (hA : Extends A A') (hB : Extends B B') : Genuine A' B' message := by
  cases h with
  | askHeads => exact .askHeads
  | heads hheads => exact .heads fun w hw => hA.mem (hheads w hw)
  | fetch hwanted hheld =>
      exact .fetch (fun w hw => hB.mem (hwanted w hw))
        fun a ha => hA.mem (hheld a ha)
  | entries cut hlinked =>
      rw [← hA.filterMap_eq hlinked.mem]
      exact .entries cut (hlinked.mono hA hB)

/-- A log of entries out of `S` that nobody has reconciled. -/
structure Sane (C : Crypto) (S : Set LogEntry) (log : GovernanceLog) :
    Prop where
  within : Within C S log
  unfinalized : log.finalized = none

theorem Sane.eq_of_mem_iff (hA : Sane C S A) (hB : Sane C S B)
    (hfree : CollisionFree C S) (hmem : ∀ h, h ∈ A.entries ↔ h ∈ B.entries) :
    A = B :=
  hA.within.eq_of_mem_iff hB.within hfree hmem
    (hA.unfinalized.trans hB.unfinalized.symm)

/-- What callers may append. -/
def Allowed {ι : Type} (S : Set LogEntry) (_ : ι) : Asked ι → Prop
  | .appendEntry e => e ∈ S
  | .syncWith _ => True

/-- Nothing was rejected. -/
def Whole (report : Option Synced) : Prop := ∀ s ∈ report, s.rejected = 0

/-- The protocol keeps logs what they are, and nothing is rejected. -/
theorem keeps (ι : Type) (hfree : CollisionFree C S)
    (hfounding : OneFounding S) :
    Network.Keeps (protocol ι C) (fun _ => Sane C S) Extends
      (fun _ _ => Genuine) (Allowed S) Whole where
  refl := Extends.refl
  trans := Extends.trans
  mono := fun hA hB h => h.mono hA hB
  act := by
    intro i A asked hA hallowed
    cases asked with
    | appendEntry e =>
        exact ⟨⟨hA.within.tryInsert hfree hallowed,
            tryInsert_finalized.trans hA.unfinalized⟩,
          hA.within.extends_tryInsert hfree hallowed,
          fun j message hsent => by cases hsent⟩
    | syncWith peer =>
        refine ⟨hA, Extends.refl A, fun j message hsent t _ => ?_⟩
        cases hsent
        exact .askHeads
  receive := by
    intro i j A B message hA hB hgenuine
    cases hgenuine with
    | askHeads =>
        refine ⟨hA, Extends.refl A, fun s hs => (by cases hs), ?_⟩
        intro answer hanswer
        cases hanswer
        exact .heads fun w hw => (hA.within.wf.mem_heads.1 hw).1
    | @fetch wanted held hwanted hheld =>
        obtain ⟨hs, cut, hanswer, hlinked, -⟩ :=
          hB.within.answer_fetch hA.within hfree hwanted hheld
        refine ⟨hA, Extends.refl A, fun s hs => (by cases hs), ?_⟩
        intro answer hsent
        cases hsent
        rw [hanswer]
        exact .entries cut hlinked
    | @heads heads hheads =>
        refine ⟨hA, Extends.refl A, fun s hs => (by cases hs), ?_⟩
        intro answer hsent
        obtain ⟨request, hrequest, rfl⟩ := Option.map_eq_some_iff.1 hsent
        simp only [handleSync] at hrequest
        split at hrequest
        · cases hrequest
          exact .fetch (fun w hw => hheads w (List.mem_of_mem_filter hw))
            fun a ha => (hA.within.wf.mem_heads.1 ha).1
        · cases hrequest
    | @entries hs cut hlinked =>
        obtain ⟨log, hreceive, hwithin, hext, hfinal, -⟩ :=
          hB.within.receive_whole hfree hfounding hA.within hlinked 0
        show Sane C S (receive C _ A 0 0).1 ∧ Extends A (receive C _ A 0 0).1 ∧
          Whole (some ⟨(receive C _ A 0 0).2.1, (receive C _ A 0 0).2.2, cut⟩) ∧
            _
        rw [hreceive]
        refine ⟨⟨hwithin, hfinal.trans hA.unfinalized⟩, hext, ?_, ?_⟩
        · intro s hs
          cases hs
          rfl
        · intro answer hsent
          obtain ⟨request, hrequest, rfl⟩ := Option.map_eq_some_iff.1 hsent
          simp only [handleSync] at hrequest
          split at hrequest
          · cases hrequest
            exact .askHeads
          · cases hrequest

/-! ## Runs -/

variable {ι : Type}

/-- Nodes that know nothing. -/
def strangers : Network.Net ι GovernanceLog SyncMessage :=
  .start fun _ => new

variable [DecidableEq ι]

section Exchange

variable {later : ℕ → Network.Action ι (Asked ι)}
  {run : ℕ → Network.Net ι GovernanceLog SyncMessage} {i j : ι}

/-- What a cut response brings is not all held already. -/
def CutBringsNews (C : Crypto) (later : ℕ → Network.Action ι (Asked ι))
    (run : ℕ → Network.Net ι GovernanceLog SyncMessage) : Prop :=
  ∀ n id i j es, later n = .deliver id →
    (run n).inflight[id]? = some ⟨j, i, .response (.entries es true)⟩ →
    ∃ e ∈ es, ((run n).nodes i).get (e.hash C) = none

/-- A node that syncs with a peer that holds more comes to hold more. -/
theorem exchange_grows (hfree : CollisionFree C S) (hfounding : OneFounding S)
    (hrun : Network.Runs (protocol ι C) later run)
    (hsane : ∀ n, Network.Sane (fun _ => Sane C S) (fun _ _ => Genuine) (run n))
    (hgrows : ∀ n, Network.Grows Extends (run n) (run (n + 1)))
    (harrives : Network.Arrives later run) (hcut : CutBringsNews C later run)
    {n : ℕ} (hsync : later n = .act i (.syncWith j))
    {x : Hash} (hx : x ∈ ((run n).nodes j).entries)
    (hlacks : x ∉ ((run n).nodes i).entries) :
    ∃ m, n ≤ m ∧ ∃ y ∈ ((run m).nodes i).entries,
      y ∉ ((run n).nodes i).entries := by
  by_contra hnever
  have hstill : ∀ m, n ≤ m → ∀ y ∈ ((run m).nodes i).entries,
      y ∈ ((run n).nodes i).entries := by
    intro m hnm y hy
    by_contra hnew
    exact hnever ⟨m, hnm, y, hy, hnew⟩
  have hext : ∀ {a b}, a ≤ b → ∀ k,
    Extends ((run a).nodes k) ((run b).nodes k) :=
    fun hab => (keeps ι hfree hfounding).grows_run hgrows hab
  -- the request for heads is sent, arrives and is answered
  have hasked : (run (n + 1)).inflight[(run n).nextId]? =
      some ⟨i, j, .request .heads⟩ := by
    rw [hrun, hsync]
    exact Network.getElem?_send _ _
  obtain ⟨a, hna, ha, -⟩ :=
    Network.arrives_as_sent hrun hsane harrives hasked
  have htold : (run (a + 1)).inflight[(run a).nextId]? =
      some ⟨j, i, .response (.heads ((run a).nodes j).heads)⟩ := by
    rw [ha]
    exact Network.arrive_answers rfl
  obtain ⟨b, hab, hb, -⟩ := Network.arrives_as_sent hrun hsane harrives htold
  -- one of the heads is lacking, so entries are asked for
  obtain ⟨w, hw⟩ : ∃ w, w ∈ ((run b).nodes i).wantedFrom
      ((run a).nodes j).heads := by
    by_contra hnone
    have hall : ∀ w, ((run a).nodes j).Leaf w →
        w ∈ ((run b).nodes i).entries := by
      intro w hw
      by_contra hout
      exact hnone ⟨w, ((hsane a).inv j).within.wf.mem_wantedFrom.2 ⟨hw, hout⟩⟩
    have hheld := ((hsane b).inv i).within.holds_all ((hsane a).inv j).within
      hfree hall x ((hext (by omega : n ≤ a) j).mem hx)
    exact hlacks (hstill b (by omega) x hheld)
  have hleaf := ((hsane a).inv j).within.wf.mem_wantedFrom.1 hw
  have hfetch : (run (b + 1)).inflight[(run b).nextId]? = some ⟨i, j,
      .request (.fetch (((run b).nodes i).wantedFrom ((run a).nodes j).heads)
        ((run b).nodes i).heads)⟩ := by
    have hsome : (((run b).nodes i).wantedFrom
        ((run a).nodes j).heads).isEmpty = false :=
      List.isEmpty_eq_false_iff.2 (List.ne_nil_of_mem hw)
    rw [hb]
    refine Network.arrive_answers ?_
    simp only [protocol, takeMessage, handleSync, hsome, Bool.not_false,
      if_true, Option.map_some]
  obtain ⟨c, hbc, hc, -⟩ := Network.arrives_as_sent hrun hsane harrives hfetch
  -- the answer holds that head, or was cut and holds something else
  obtain ⟨hs, cut, hanswer, hlinked, hfull⟩ :=
    ((hsane c).inv i).within.answer_fetch ((hsane c).inv j).within hfree
      (fun w hw => (hext (by omega : a ≤ c) j).mem
        (((hsane a).inv j).within.wf.mem_wantedFrom.1 hw).1.1)
      (fun w hw => (hext (by omega : b ≤ c) i).mem
        (((hsane b).inv i).within.wf.mem_heads.1 hw).1)
  have hsent : (run (c + 1)).inflight[(run c).nextId]? = some ⟨j, i,
      .response (.entries (hs.filterMap fun h => ((run c).nodes j).entries[h]?)
        cut)⟩ := by
    rw [hc, ← hanswer]
    exact Network.arrive_answers rfl
  obtain ⟨d, hcd, hd, hfound, hdeliver⟩ :=
    Network.arrives_as_sent hrun hsane harrives hsent
  have hlinked' := hlinked.mono (hext (by omega : c ≤ d) j)
    (hext (by omega : c ≤ d) i)
  have hsame := (hext (by omega : c ≤ d) j).filterMap_eq hlinked.mem
  obtain ⟨log, hreceive, -, -, -, hentries⟩ :=
    ((hsane d).inv j).within.receive_whole hfree hfounding
      ((hsane d).inv i).within hlinked' 0
  have hlog : (run (d + 1)).nodes i = log := by
    rw [hd, ← hsame]
    refine Network.arrive_target.trans ?_
    show (receive C _ ((run d).nodes i) 0 0).1 = log
    rw [hreceive]
  have hnone : ∀ y ∈ hs, y ∈ ((run n).nodes i).entries := by
    intro y hy
    refine hstill (d + 1) (by omega) y ?_
    rw [hlog]
    exact (hentries y).2 (.inr hy)
  cases cut with
  | false =>
      refine hleaf.2 ((hext (by omega : n ≤ b) i).mem
        (hnone w (hfull rfl w hw fun hheld => hleaf.2 ?_)))
      exact (hext (by omega : n ≤ b) i).mem (hstill c (by omega) w hheld)
  | true =>
      obtain ⟨e, he, hnew⟩ := hcut d _ i j _ hdeliver hfound
      obtain ⟨y, hy, hye⟩ := List.mem_filterMap.1 he
      have hkey := ((hsane c).inv j).within.wf.keyed y e hye
      rw [hkey] at hnew
      refine (BTreeMap.getElem?_eq_none_iff _ _).1 hnew ?_
      exact (hext (by omega : n ≤ d) i).mem (hnone y hy)

end Exchange

def Asked.appends : Asked ι → Option LogEntry
  | .appendEntry e => some e
  | .syncWith _ => none

/-- One node founds the network and the other hears of it. -/
def meeting : List (Network.Action Bool (Asked Bool)) :=
  [.act false (.appendEntry (Sample.genesis 0 .conservativeDefault [])),
    .act false (.appendEntry (Sample.entry 1 (some 0) 1 1 (Sample.admits 2))),
    .act true (.syncWith false), .deliver 0, .deliver 1, .deliver 2, .deliver 3]

/-- Where they stand when they have met. -/
def met : Network.Net Bool GovernanceLog SyncMessage :=
  Machine.state (Network.step (protocol Bool .sample)) strangers meeting

end GovernanceLog

end Intranet
