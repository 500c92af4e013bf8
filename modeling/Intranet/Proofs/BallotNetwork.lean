import Intranet.Lib.Gossip
import Intranet.Lib.Turns
import Intranet.Proofs.Ballots
import Intranet.Ref.BallotNetwork

/-!
# Ballots cast anywhere count everywhere

Nodes over logs that have one vote open collect its ballots from each other.
Nothing held is given up, and what is held was put in at some node (`Sound`).
A node that asks a peer names what it holds, so whatever comes back is new to
it, cut or not: it comes out of the exchange with more (`exchange_grows`).

In the end all hold the same ballots, which are those that qualify and were
put in anywhere, and so assemble the same certificate.
-/

namespace Intranet

namespace BallotNode

variable {C : Crypto} {validKey : Bytes 32 → Bool} {ι : Type}
  {identities : ι → PerNetworkIdentity C validKey} {node : BallotNode}
  {S : Set Ballot} {v : Hash} {proposal : VoteProposal}

/-! ## Serving and receiving -/

theorem mem_heldFor {h : Hash} :
    h ∈ node.heldFor v ↔ (node.slot v h).isSome := by
  rw [heldFor, slot, Std.ExtTreeMap.mem_keys, Option.isSome_iff_exists,
    BTreeMap.mem_iff_exists]

theorem mem_unnamed {request : BallotRequest} {b : Ballot} :
    b ∈ node.unnamed request ↔
      ∃ h, h ∉ request.held ∧ node.slot request.voteId h = some b := by
  rw [unnamed, List.mem_map]
  simp only [List.mem_filter, BTreeMap.mem_toList_iff, Bool.not_eq_true',
    List.contains_eq_mem, decide_eq_false_iff_not, slot]
  constructor
  · intro hgiven
    obtain ⟨e, ⟨hheld, hout⟩, rfl⟩ := hgiven
    exact ⟨e.1, hout, hheld⟩
  · intro hgiven
    obtain ⟨h, hout, hheld⟩ := hgiven
    exact ⟨(h, b), ⟨hheld, hout⟩, rfl⟩

/-- What a node that knows the vote and the requester answers. -/
theorem serveBallots_open {s : GovernanceState} {request : BallotRequest}
    (hs : node.log.replayCanonical C = .ok s)
    (hopen : s.openVotes[request.voteId]? = some proposal)
    (hmember : s.isMember request.requester = true) :
    node.serveBallots C request =
      .ballots ((node.unnamed request).take maxBallotsPerResponse)
        (decide (maxBallotsPerResponse < (node.unnamed request).length)) := by
  have hknown : s.openVotes.contains request.voteId = true :=
    Std.ExtTreeMap.contains_iff_mem.2
      ((BTreeMap.mem_iff_exists _ _).2 ⟨proposal, hopen⟩)
  rw [serveBallots, governanceState, hs]
  dsimp only [Except.toOption]
  rw [hmember, hknown]
  rfl

theorem receiveBallots_snd (ballots : List Ballot) (node : BallotNode)
    (accepted : ℕ) :
    (receiveBallots C ballots node accepted).2 = node.recordAll C ballots := by
  induction ballots generalizing node accepted with
  | nil => rfl
  | cons b ballots ih => exact ih _ _

theorem slot_recordAll_of_mem {ballots : List Ballot} {b : Ballot}
    (hb : b ∈ ballots) (haccepts : Accepts C node.log b) :
    ((node.recordAll C ballots).slot b.voteId (b.hash C)).isSome := by
  obtain ⟨pre, post, rfl⟩ := List.append_of_mem hb
  rw [recordAll_append, recordAll_cons]
  refine slot_recordAll_isSome post ?_
  rcases recordBallot_cases C (node.recordAll C pre) b with
    ⟨-, heq⟩ | ⟨hnot, -⟩
  · rw [heq, slot_put, if_pos ⟨rfl, rfl⟩]
    rfl
  · rw [recordAll_log] at hnot
    exact absurd haccepts hnot

/-! ## What nodes hold -/

/-- What a call puts in. -/
def Call.offers (identity : PerNetworkIdentity C validKey) :
    Call ι → Option Ballot
  | .castBallot voteId approve now =>
      some (.cast identity voteId approve now)
  | .recordBallot ballot => some ballot
  | .syncBallotsWith _ _ => none

theorem call_of_offers {i : ι} {asked : Call ι} {b : Ballot}
    (h : asked.offers (identities i) = some b) :
    node.call identities i asked = ((node.recordBallot C b).2, none) := by
  cases asked with
  | castBallot voteId approve now =>
      cases h
      rfl
  | recordBallot ballot =>
      cases h
      rfl
  | syncBallotsWith peer voteId => cases h

/-- Everything `node` holds counts and is out of `S`. -/
structure Sound (C : Crypto) (S : Set Ballot) (log : GovernanceLog)
    (node : BallotNode) : Prop where
  log_eq : node.log = log
  collected : Collection C node
  within : ∀ v h b, node.slot v h = some b → b ∈ S

/-- Nothing `node` holds is given up. -/
def Keeps (node node' : BallotNode) : Prop :=
  ∀ v h b, node.slot v h = some b → node'.slot v h = some b

theorem sound_new (C : Crypto) (S : Set Ballot) (log : GovernanceLog) :
    Sound C S log (new log) where
  log_eq := rfl
  collected := collection_new C log
  within v h b hb := by simp at hb

theorem Sound.recordBallot {log : GovernanceLog} (h : Sound C S log node)
    (hS : S.InjOn (Ballot.hash C)) {b : Ballot} (hb : b ∈ S) :
    Sound C S log (node.recordBallot C b).2 ∧
      Keeps node (node.recordBallot C b).2 := by
  rcases recordBallot_cases C node b with ⟨haccepts, heq⟩ | ⟨-, heq⟩
  · rw [heq]
    refine ⟨⟨h.log_eq, h.collected.put haccepts, fun v h' a ha => ?_⟩,
      fun v h' a ha => ?_⟩
    · rw [slot_put] at ha
      split at ha
      · cases ha
        exact hb
      · exact h.within v h' a ha
    · rw [slot_put]
      split
      · next hslot =>
          have hhash := (h.collected v h' a ha).1
          exact congrArg some (hS hb (h.within v h' a ha)
            (hslot.2.trans hhash.symm))
      · exact ha
  · rw [heq]
    exact ⟨h, fun _ _ _ ha => ha⟩

theorem Sound.recordAll {log : GovernanceLog} (hS : S.InjOn (Ballot.hash C))
    {ballots : List Ballot} (hballots : ∀ b ∈ ballots, b ∈ S)
    (h : Sound C S log node) :
    Sound C S log (node.recordAll C ballots) ∧
      Keeps node (node.recordAll C ballots) := by
  induction ballots generalizing node with
  | nil => exact ⟨h, fun _ _ _ ha => ha⟩
  | cons b ballots ih =>
      obtain ⟨hnext, hkeeps⟩ :=
        h.recordBallot hS (hballots b List.mem_cons_self)
      obtain ⟨hend, hrest⟩ :=
        ih (fun x hx => hballots x (List.mem_cons_of_mem b hx)) hnext
      exact ⟨hend, fun v h' a ha => hrest v h' a (hkeeps v h' a ha)⟩

/-! ## What is under way -/

/-- Ballots come out of `S`. -/
def Genuine (S : Set Ballot) : Message → Prop
  | .response _ (.ballots ballots _) => ∀ b ∈ ballots, b ∈ S
  | _ => True

/-- What callers may put in. -/
def Allowed (identities : ι → PerNetworkIdentity C validKey) (S : Set Ballot)
    (i : ι) (asked : Call ι) : Prop :=
  ∀ b, asked.offers (identities i) = some b → b ∈ S

theorem genuine_serveBallots {log : GovernanceLog} (h : Sound C S log node)
    (request : BallotRequest) :
    Genuine S (.response request.voteId (node.serveBallots C request)) := by
  rw [serveBallots]
  split
  · trivial
  · next s hs =>
      split
      · trivial
      · split
        · trivial
        · intro b hb
          obtain ⟨h', -, hheld⟩ := mem_unnamed.1 (List.mem_of_mem_take hb)
          exact h.within request.voteId h' b hheld

/-- The protocol keeps collections what they are. -/
theorem keeps (identities : ι → PerNetworkIdentity C validKey)
    (logs : ι → GovernanceLog) (hS : S.InjOn (Ballot.hash C)) :
    Network.Keeps (protocol identities) (fun i => Sound C S (logs i)) Keeps
      (fun _ _ _ _ => Genuine S) (Allowed identities S)
      (fun _ => True) where
  refl := fun _ _ _ _ h => h
  trans := fun hab hbc v h b hb => hbc v h b (hab v h b hb)
  mono := fun _ _ h => h
  act := by
    intro i node asked hnode hallowed
    cases hoffers : asked.offers (identities i) with
    | some b =>
        have hcall : (protocol identities).act i asked node =
          ((node.recordBallot C b).2, none) := call_of_offers hoffers
        rw [hcall]
        obtain ⟨hsound, hkeeps⟩ := hnode.recordBallot hS (hallowed b hoffers)
        exact ⟨hsound, hkeeps, fun j message hsent => by cases hsent⟩
    | none =>
        cases asked with
        | castBallot voteId approve now => cases hoffers
        | recordBallot ballot => cases hoffers
        | syncBallotsWith peer voteId =>
            refine ⟨hnode, fun _ _ _ h => h, fun j message hsent t _ => ?_⟩
            cases hsent
            trivial
  receive := by
    intro i j node sender message hnode hsender hgenuine
    cases message with
    | request request =>
        refine ⟨hnode, fun _ _ _ h => h, trivial, fun answer hanswer => ?_⟩
        cases hanswer
        rw [answerBallots]
        split
        · trivial
        · exact genuine_serveBallots hnode request
    | response voteId response =>
        cases response with
        | ballots ballots cut =>
            have hnext : ((protocol identities).receive i j
                (.response voteId (.ballots ballots cut)) node).2 =
                (node.recordAll C ballots, none) :=
              Prod.ext (receiveBallots_snd ballots node 0) rfl
            rw [hnext]
            obtain ⟨hsound, hkeeps⟩ := hnode.recordAll hS hgenuine
            exact ⟨hsound, hkeeps, trivial, fun answer hanswer => by
              cases hanswer⟩
        | refused reason =>
            have hnext : ((protocol identities).receive i j
                (.response voteId (.refused reason)) node).2 =
                (node, none) := by
              cases reason <;> rfl
            rw [hnext]
            exact ⟨hnode, fun _ _ _ h => h, trivial, fun answer hanswer => by
              cases hanswer⟩

/-! ## The vote -/

/-- A log that has the vote open under `proposal`, and everybody as a
member. -/
def Ready (C : Crypto) (identities : ι → PerNetworkIdentity C validKey)
    (v : Hash) (proposal : VoteProposal) (log : GovernanceLog) : Prop :=
  ∃ s, log.replayCanonical C = .ok s ∧ s.openVotes[v]? = some proposal ∧
    ∀ i, s.isMember (identities i).id = true

/-- What the log has open is accepted when it qualifies. -/
theorem Ready.accepts {log : GovernanceLog}
    (h : Ready C identities v proposal log) {b : Ballot} :
    (b.voteId = v ∧ Accepts C log b) ↔
      QuorumCertificate.Qualifies C proposal b := by
  obtain ⟨s, hs, hopen, -⟩ := h
  have hid := (GovernanceState.replay_open hs hopen).1
  constructor
  · intro hgiven
    obtain ⟨rfl, s', p, hs', hp, hsigned, helector, htime⟩ := hgiven
    rw [hs] at hs'
    cases hs'
    rw [hopen] at hp
    cases hp
    exact ⟨hid, hsigned, helector, htime⟩
  · intro hqual
    have hv : b.voteId = v := hqual.voteId.trans hid.symm
    exact ⟨hv, s, proposal, hs, by rw [hv]; exact hopen, hqual.signed,
      hqual.elector, hqual.inTime⟩

/-- What is put in while `actions` happen. -/
def offered (identities : ι → PerNetworkIdentity C validKey)
    (actions : List (Network.Action ι (Call ι))) : Set Ballot :=
  {b | ∃ i asked, .act i asked ∈ actions ∧
    asked.offers (identities i) = some b}

variable [DecidableEq ι]

section Exchange

variable {logs : ι → GovernanceLog}
  {later : ℕ → Network.Action ι (Call ι)}
  {run : ℕ → Network.Net ι BallotNode Message} {i j : ι}

/-- A node that asks a peer that holds more comes to hold more. -/
theorem exchange_grows (hS : S.InjOn (Ballot.hash C))
    (hready : ∀ i, Ready C identities v proposal (logs i))
    (hrun : Network.Runs (protocol identities) later run)
    (hsane : ∀ n, Network.Sane (fun i => Sound C S (logs i))
      (fun _ _ _ _ => Genuine S) (run n))
    (hgrows : ∀ n, Network.Grows Keeps (run n) (run (n + 1)))
    (harrives : Network.Arrives later run) {n : ℕ}
    (hask : later n = .act i (.syncBallotsWith j v)) {x : Hash}
    (hx : (((run n).nodes j).slot v x).isSome)
    (hlacks : ¬ (((run n).nodes i).slot v x).isSome) :
    ∃ m, n ≤ m ∧ ∃ y, (((run m).nodes i).slot v y).isSome ∧
      ¬ (((run n).nodes i).slot v y).isSome := by
  have hkept : ∀ {a b}, a ≤ b → ∀ k,
      Keeps ((run a).nodes k) ((run b).nodes k) :=
    fun hab => (keeps identities logs hS).grows_run hgrows hab
  -- the request is sent, and arrives as it is
  have hasked : (run (n + 1)).inflight[(run n).nextId]? = some ⟨i, j,
      .request (((run n).nodes i).askBallots (identities i) v)⟩ := by
    rw [hrun, hask]
    exact Network.getElem?_send _ _
  obtain ⟨a, hna, ha, -⟩ :=
    Network.arrives_as_sent hrun hsane harrives hasked
  -- the peer knows the vote and the requester, and still holds `x`
  let request := ((run n).nodes i).askBallots (identities i) v
  let ballots := (((run a).nodes j).unnamed request).take maxBallotsPerResponse
  obtain ⟨s, hs, hopen, hmember⟩ := hready j
  rw [← ((hsane a).inv j).log_eq] at hs
  have hanswer : ∃ cut, ((run a).nodes j).answerBallots C (identities i).id
      request = .ballots ballots cut := by
    have hown : ¬ request.requester ≠ (identities i).id := not_not.2 rfl
    rw [answerBallots, if_neg hown]
    exact ⟨_, serveBallots_open hs hopen (hmember i)⟩
  obtain ⟨cut, hanswer⟩ := hanswer
  have hsome : ballots ≠ [] := by
    obtain ⟨b, hb⟩ := Option.isSome_iff_exists.1 hx
    have hin : b ∈ ((run a).nodes j).unnamed request :=
      mem_unnamed.2 ⟨x, fun hnamed => hlacks (mem_heldFor.1 hnamed),
        hkept (by omega : n ≤ a) j v x b hb⟩
    rw [Ne, List.take_eq_nil_iff, not_or]
    exact ⟨by decide, List.ne_nil_of_mem hin⟩
  have hsent : (run (a + 1)).inflight[(run a).nextId]? =
      some ⟨j, i, .response v (.ballots ballots cut)⟩ := by
    rw [ha, ← hanswer]
    exact Network.arrive_answers rfl
  obtain ⟨d, had, hd, -⟩ := Network.arrives_as_sent hrun hsane harrives hsent
  -- what comes back was not held when it was asked for, and is accepted
  obtain ⟨b, hb⟩ := List.exists_mem_of_ne_nil ballots hsome
  obtain ⟨y, hnew, hheld⟩ := mem_unnamed.1 (List.mem_of_mem_take hb)
  obtain ⟨rfl, hv, haccepts⟩ := ((hsane a).inv j).collected v y b hheld
  rw [((hsane a).inv j).log_eq] at haccepts
  have hcounts : Accepts C ((run d).nodes i).log b := by
    rw [((hsane d).inv i).log_eq]
    exact ((hready i).accepts.2 ((hready j).accepts.1 ⟨hv, haccepts⟩)).2
  refine ⟨d + 1, by omega, b.hash C, ?_, fun hold => hnew (mem_heldFor.2 hold)⟩
  have hnode : (run (d + 1)).nodes i =
      ((run d).nodes i).recordAll C ballots := by
    rw [hd]
    exact Network.arrive_target.trans (receiveBallots_snd ballots _ 0)
  rw [hnode, ← hv]
  exact slot_recordAll_of_mem hb hcounts

end Exchange

/-! ## Runs -/

/-- Nodes that have collected nothing. -/
def fresh (logs : ι → GovernanceLog) : Network.Net ι BallotNode Message :=
  .start fun i => new (logs i)

/-- Members 2 and 3 vote on the admission of member 4. -/
def pollProposal : VoteProposal :=
  ⟨(Sample.admits 4).actionHash .sample, GroupId.everyone,
    Std.ExtTreeSet.ofList [Sample.identity 2, Sample.identity 3] compare,
    Sample.hash 2, ⟨100⟩, 2⟩

def pollLog : GovernanceLog :=
  GovernanceLog.new.insertAll .sample
    [Sample.genesis 0 .conservativeDefault [],
      Sample.entry 1 (some 0) 1 1 (Sample.admits 2),
      Sample.entry 2 (some 1) 2 1 (Sample.admits 3),
      Sample.entry 3 (some 2) 3 1 (.voteProposed pollProposal)]

def pollVote : Hash := pollProposal.voteId .sample

def pollVoters (i : Bool) : PerNetworkIdentity .sample (fun _ => true) where
  id := Sample.identity (if i then 3 else 2)
  sign _ := Sample.signature (if i then 3 else 2) (if i then 3 else 2)
  valid := rfl
  verifies payload := Sample.verify_signature _ _ payload

/-- Each votes for it and asks the other once. -/
def polling : List (Network.Action Bool (Call Bool)) :=
  [.act false (.castBallot pollVote true ⟨50⟩),
    .act true (.castBallot pollVote true ⟨60⟩),
    .act false (.syncBallotsWith true pollVote), .deliver 0, .deliver 1,
    .act true (.syncBallotsWith false pollVote), .deliver 2, .deliver 3]

/-- Where they stand when both have asked. -/
def polled : Network.Net Bool BallotNode Message :=
  Machine.state (Network.step (protocol pollVoters)) (fresh fun _ => pollLog)
    polling

end BallotNode

end Intranet
