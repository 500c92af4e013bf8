import Intranet.Lib.Network

/-!
# What is sent, and what arrives

The history of a network has an event for each step: what was done, which
message arrived and what was reported of it, and which message was sent.

Messages are neither invented nor doubled: what arrives in a run from the
start is, with multiplicity, part of what was sent in it (`arrived_subperm`).
So arrivals of a kind are counted by what makes nodes send that kind
(`countP_le`), and with that reports by calls.
-/

namespace Network

/-- What one step does. -/
structure Event (ι M A O : Type) where
  action : Action ι A
  arrived : Option (Packet ι M × O)
  sent : Option (Packet ι M)

variable {ι N M A O : Type} {net : Net ι N M} {packet : Packet ι M} {id : ℕ}

/-- The event of a step. -/
def watch (P : Protocol ι N M A O) (net : Net ι N M) :
    Action ι A → Event ι M A O
  | .act i call => ⟨.act i call, none, (P.act i call (net.nodes i)).2.map
      fun sent => ⟨i, sent.1, sent.2⟩⟩
  | .deliver id =>
      match net.inflight[id]? with
      | none => ⟨.deliver id, none, none⟩
      | some packet =>
          let done := P.receive packet.target packet.source packet.message
            (net.nodes packet.target)
          ⟨.deliver id, some (packet, done.1), done.2.2.map
            fun answer => ⟨packet.target, packet.source, answer⟩⟩
  | .lose id => ⟨.lose id, none, none⟩

/-- The messages under way. -/
def Net.packets (net : Net ι N M) : List (Packet ι M) :=
  net.inflight.toList.map Prod.snd

/-- Numbers are given in order. -/
def Numbered (net : Net ι N M) : Prop := ∀ id ∈ net.inflight, id < net.nextId

theorem numbered_start (nodes : ι → N) :
    Numbered (Net.start nodes : Net ι N M) :=
  fun _ hid => absurd hid Std.ExtTreeMap.not_mem_empty

theorem Numbered.send (h : Numbered net) (packet : Packet ι M) :
    Numbered (net.send packet) := by
  intro other hother
  show other < net.nextId + 1
  rcases (BTreeMap.mem_insert_iff _ _ _ _).1 hother with rfl | hother
  · exact Nat.lt_succ_self _
  · exact Nat.lt_succ_of_lt (h other hother)

theorem Numbered.take (h : Numbered net) (id : ℕ) : Numbered (net.take id) :=
  fun other hother => h other (Std.ExtTreeMap.mem_of_mem_erase hother)

/-- A message under a fresh number is one more. -/
theorem Numbered.packets_send (h : Numbered net) (packet : Packet ι M) :
    (net.send packet).packets.Perm (packet :: net.packets) := by
  have hfound : (net.send packet).inflight[net.nextId]? = some packet :=
    getElem?_send net packet
  have hrest : (net.send packet).inflight.erase net.nextId = net.inflight := by
    refine Std.ExtTreeMap.ext_getElem? fun k => ?_
    rw [BTreeMap.getElem?_erase_ite, show (net.send packet).inflight =
      net.inflight.insert net.nextId packet from rfl,
      BTreeMap.getElem?_insert_ite]
    split
    · next heq =>
        rw [← heq, eq_comm, BTreeMap.getElem?_eq_none_iff]
        exact fun hmem => lt_irrefl _ (h _ hmem)
    · rfl
  have hperm := (BTreeMap.toList_perm_of_getElem? hfound).map Prod.snd
  rwa [hrest] at hperm

theorem packets_take (h : net.inflight[id]? = some packet) :
    net.packets.Perm (packet :: (net.take id).packets) :=
  (BTreeMap.toList_perm_of_getElem? h).map Prod.snd

theorem packets_take_subperm (net : Net ι N M) (id : ℕ) :
    (net.take id).packets.Subperm net.packets := by
  cases hfound : net.inflight[id]? with
  | none =>
      rw [Net.take, BTreeMap.erase_of_not_mem
        ((BTreeMap.getElem?_eq_none_iff _ _).1 hfound)]
  | some packet =>
      exact (List.sublist_cons_self _ _).subperm.trans
        (packets_take hfound).symm.subperm

variable [DecidableEq ι] {P : Protocol ι N M A O}

/-- A step balances: what arrives and what is then under way was under way
before or is sent. -/
theorem Numbered.step (h : Numbered net) (action : Action ι A) :
    Numbered (step P net action).2 ∧
      ((watch P net action).arrived.toList.map Prod.fst ++
          (step P net action).2.packets).Subperm
        (net.packets ++ (watch P net action).sent.toList) := by
  cases action with
  | act i call =>
      unfold Network.step watch
      simp only
      cases (P.act i call (net.nodes i)).2 with
      | none =>
          refine ⟨h, ?_⟩
          simp only [Option.map_none, Option.toList_none, List.map_nil,
            List.nil_append, List.append_nil, Option.elim_none]
          exact List.Subperm.refl net.packets
      | some sent =>
          have hset : Numbered (net.set i (P.act i call (net.nodes i)).1) := h
          refine ⟨hset.send _, ?_⟩
          exact ((hset.packets_send _).trans
            (List.perm_append_singleton _ _).symm).subperm
  | lose id =>
      refine ⟨h.take id, ?_⟩
      unfold watch
      simp only [Option.toList_none, List.map_nil, List.nil_append,
        List.append_nil]
      exact packets_take_subperm net id
  | deliver id =>
      cases hfound : net.inflight[id]? with
      | none =>
          rw [step_missing hfound]
          refine ⟨h, ?_⟩
          unfold watch
          simp only [hfound, Option.toList_none, List.map_nil, List.nil_append,
            List.append_nil]
          exact List.Subperm.refl _
      | some packet =>
          rw [step_deliver hfound]
          unfold watch arrive
          simp only [hfound]
          have hset : Numbered ((net.take id).set packet.target (P.receive
              packet.target packet.source packet.message
              ((net.take id).nodes packet.target)).2.1) := h.take id
          have htaken := packets_take hfound
          show _ ∧ List.Subperm (packet :: _) _
          cases hanswer : (P.receive packet.target packet.source packet.message
              (net.nodes packet.target)).2.2 with
          | none =>
              simp only [Net.take, hanswer] at hset ⊢
              refine ⟨hset, ?_⟩
              simp only [Option.map_none, Option.toList_none, List.append_nil]
              exact htaken.symm.subperm
          | some answer =>
              simp only [Net.take, hanswer] at hset ⊢
              refine ⟨hset.send _, ?_⟩
              have hsent := (hset.packets_send
                ⟨packet.target, packet.source, answer⟩).cons packet
              refine (hsent.trans (List.Perm.swap _ _ _) |>.trans ?_).subperm
              exact (htaken.symm.cons _).trans
                (List.perm_append_singleton _ _).symm

/-! ## Histories -/

/-- The events of a run. -/
def history (P : Protocol ι N M A O) (net : Net ι N M)
    (actions : List (Action ι A)) : List (Event ι M A O) :=
  Machine.answers
    (fun net action => (watch P net action, (step P net action).2)) net actions

/-- The messages that arrived. -/
def arrived (events : List (Event ι M A O)) : List (Packet ι M) :=
  events.filterMap fun e => e.arrived.map Prod.fst

/-- The messages that were sent. -/
def sent (events : List (Event ι M A O)) : List (Packet ι M) :=
  events.filterMap Event.sent

theorem history_snoc (net : Net ι N M) (actions : List (Action ι A))
    (action : Action ι A) :
    history P net (actions ++ [action]) = history P net actions ++
      [watch P (Machine.state (step P) net actions) action] := by
  rw [history, Machine.answers, Machine.trace_snoc, List.map_append]
  rfl

/-- A rule for histories. -/
theorem history_rule (P : Protocol ι N M A O) (net : Net ι N M)
    (actions : List (Action ι A))
    {R : List (Event ι M A O) → Net ι N M → Prop} (hstart : R [] net)
    (hstep : ∀ es s action, action ∈ actions → R es s →
      R (es ++ [watch P s action]) (step P s action).2) :
    R (history P net actions) (Machine.state (step P) net actions) := by
  induction actions using List.reverseRecOn with
  | nil => exact hstart
  | append_singleton actions action ih =>
      rw [history_snoc, Machine.state_snoc]
      exact hstep _ _ action (List.mem_append_right _ List.mem_cons_self)
        (ih fun es s a ha => hstep es s a (List.mem_append_left _ ha))

omit [DecidableEq ι] in
theorem arrived_snoc (events : List (Event ι M A O)) (e : Event ι M A O) :
    arrived (events ++ [e]) =
      arrived events ++ e.arrived.toList.map Prod.fst := by
  rw [arrived, List.filterMap_append]
  cases harrived : e.arrived with
  | none => simp [arrived, harrived]
  | some a => simp [arrived, harrived]

omit [DecidableEq ι] in
theorem sent_snoc (events : List (Event ι M A O)) (e : Event ι M A O) :
    sent (events ++ [e]) = sent events ++ e.sent.toList := by
  rw [sent, List.filterMap_append]
  cases hsent : e.sent with
  | none => simp [sent, hsent]
  | some a => simp [sent, hsent]

/-- What arrives was sent, and no more often. -/
theorem arrived_subperm (P : Protocol ι N M A O) (nodes : ι → N)
    (actions : List (Action ι A)) :
    (arrived (history P (Net.start nodes) actions)).Subperm
      (sent (history P (Net.start nodes) actions)) := by
  have hbalance := history_rule P (Net.start nodes) actions
    (R := fun es s => Numbered s ∧ (arrived es ++ s.packets).Subperm (sent es))
    ⟨numbered_start nodes, List.Subperm.refl _⟩ ?_
  · exact (List.sublist_append_left _ _).subperm.trans hbalance.2
  · intro es s action _ hso
    obtain ⟨hnumbered, hstep⟩ := hso.1.step (P := P) action
    refine ⟨hnumbered, ?_⟩
    rw [arrived_snoc, sent_snoc, List.append_assoc]
    refine ((List.subperm_append_left (arrived es)).2 hstep).trans ?_
    rw [← List.append_assoc]
    exact (List.subperm_append_right _).2 hso.2

/-- So reports of a kind are no more than the sendings they go back to. -/
theorem countP_le (P : Protocol ι N M A O) (nodes : ι → N)
    (actions : List (Action ι A)) (q : Packet ι M → Bool)
    {r c : Event ι M A O → Bool}
    (hreport : ∀ e ∈ history P (Net.start nodes) actions, r e = true →
      ∃ a, e.arrived = some a ∧ q a.1 = true)
    (hcause : ∀ e ∈ history P (Net.start nodes) actions, ∀ p,
      e.sent = some p → q p = true → c e = true) :
    (history P (Net.start nodes) actions).countP r ≤
      (history P (Net.start nodes) actions).countP c := by
  have hsub := (arrived_subperm P nodes actions).countP_le q
  rw [arrived, sent, List.countP_filterMap, List.countP_filterMap] at hsub
  refine (List.countP_mono_left fun e he hr => ?_).trans
    (hsub.trans (List.countP_mono_left fun e he hq => ?_))
  · obtain ⟨a, ha, hqa⟩ := hreport e he hr
    rw [ha]
    exact hqa
  · cases hsent : e.sent with
    | none =>
        rw [hsent] at hq
        cases hq
    | some p =>
        rw [hsent] at hq
        exact hcause e he p hsent hq

/-! ## Events -/

/-- An event of a run is one step from a state in it. -/
theorem mem_history {actions : List (Action ι A)} {e : Event ι M A O}
    (he : e ∈ history P net actions) :
    ∃ s, ∃ action ∈ actions, e = watch P s action := by
  refine history_rule P net actions (R := fun es _ => ∀ e ∈ es, ∃ s,
    ∃ action ∈ actions, e = watch P s action) (fun e he => by cases he)
    (fun es s action haction hso e he => ?_) e he
  rcases List.mem_append.1 he with he | he
  · exact hso e he
  · exact ⟨s, action, haction, List.mem_singleton.1 he⟩

omit [DecidableEq ι] in
/-- What arrives is received. -/
theorem watch_arrived {action : Action ι A} {a : Packet ι M × O}
    (h : (watch P net action).arrived = some a) :
    a.2 = (P.receive a.1.target a.1.source a.1.message
        (net.nodes a.1.target)).1 ∧
      (watch P net action).sent = (P.receive a.1.target a.1.source a.1.message
        (net.nodes a.1.target)).2.2.map
          fun answer => ⟨a.1.target, a.1.source, answer⟩ := by
  cases action with
  | act i call => cases h
  | lose id => cases h
  | deliver id =>
      unfold watch at h ⊢
      cases hfound : net.inflight[id]? with
      | none =>
          simp only [hfound] at h
          cases h
      | some packet =>
          simp only [hfound] at h ⊢
          cases h
          exact ⟨rfl, rfl⟩

omit [DecidableEq ι] in
/-- What is sent comes with a call or answers what arrived. -/
theorem watch_sent {action : Action ι A} {p : Packet ι M}
    (h : (watch P net action).sent = some p) :
    (∃ i call m, action = .act i call ∧
        (P.act i call (net.nodes i)).2 = some m ∧ p = ⟨i, m.1, m.2⟩) ∨
      ∃ a answer, (watch P net action).arrived = some a ∧
        (P.receive a.1.target a.1.source a.1.message
          (net.nodes a.1.target)).2.2 = some answer ∧
        p = ⟨a.1.target, a.1.source, answer⟩ := by
  cases action with
  | act i call =>
      obtain ⟨m, hm, rfl⟩ := Option.map_eq_some_iff.1 h
      exact .inl ⟨i, call, m, rfl, hm, rfl⟩
  | lose id => cases h
  | deliver id =>
      unfold watch at h ⊢
      cases hfound : net.inflight[id]? with
      | none =>
          simp only [hfound] at h
          cases h
      | some packet =>
          simp only [hfound] at h ⊢
          obtain ⟨answer, hanswer, rfl⟩ := Option.map_eq_some_iff.1 h
          exact .inr ⟨_, answer, rfl, hanswer, rfl⟩

/-- A message that arrives in a run from the start was sent in it. -/
theorem arrived_was_sent {nodes : ι → N} {actions : List (Action ι A)}
    {e : Event ι M A O} (he : e ∈ history P (Net.start nodes) actions)
    {a : Packet ι M × O} (h : e.arrived = some a) :
    ∃ e' ∈ history P (Net.start nodes) actions, e'.sent = some a.1 := by
  have harrived : a.1 ∈ arrived (history P (Net.start nodes) actions) :=
    List.mem_filterMap.2 ⟨e, he, by rw [h]; rfl⟩
  exact List.mem_filterMap.1
    ((arrived_subperm P nodes actions).subset harrived)

/-- What the calls and the messages of a node keep of it, every step keeps. -/
theorem step_node {R : N → N → Prop} (i : ι) (hrefl : ∀ n, R n n)
    (hact : ∀ call n, R n (P.act i call n).1)
    (hreceive : ∀ j m n, R n (P.receive i j m n).2.1)
    (net : Net ι N M) (action : Action ι A) :
    R (net.nodes i) ((step P net action).2.nodes i) := by
  have hset : ∀ (k : ι) (n : N), (k = i → R (net.nodes i) n) →
      R (net.nodes i) (Function.update net.nodes k n i) := by
    intro k n hn
    by_cases hk : i = k
    · subst hk
      rw [Function.update_self]
      exact hn rfl
    · rw [Function.update_of_ne hk]
      exact hrefl _
  cases action with
  | lose id => exact hrefl _
  | act k call =>
      have hnode := hset k (P.act k call (net.nodes k)).1 fun hk => by
        subst hk
        exact hact call _
      unfold step
      simp only
      cases (P.act k call (net.nodes k)).2 with
      | none => exact hnode
      | some sent => exact hnode
  | deliver id =>
      cases hfound : net.inflight[id]? with
      | none =>
          rw [step_missing hfound]
          exact hrefl _
      | some packet =>
          have hnode := hset packet.target (P.receive packet.target
              packet.source packet.message (net.nodes packet.target)).2.1
            fun hk => by
              rw [hk]
              exact hreceive _ _ _
          rw [step_deliver hfound]
          unfold arrive
          simp only [Net.take]
          cases (P.receive packet.target packet.source packet.message
              (net.nodes packet.target)).2.2 with
          | none => exact hnode
          | some answer => exact hnode

end Network
