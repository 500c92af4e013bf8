import Intranet.Lib.Delivery
import Intranet.Proofs.Messages
import Intranet.Ref.DirectNode
import Intranet.Ref.Sample

/-!
# Direct messages go where they were sent

A node takes a direct message only over the connection of its sender. So it
does not matter that signed messages can be copied: a message reported under
the name of a member that runs this code was handed to this very node by it,
and at least as often as it was reported. An acknowledgement between two such
members answers the one message it was asked for, comes once at most, and says
what the recipient did with that message.

Members that do not run this code may send anything. What counts is traced
back over the history of the network, from a report to the frame that arrived,
to the frame that was sent, and to the call that sent it.
-/

namespace Intranet

open Reader

variable {C : Crypto} {validKey : Bytes 32 → Bool}

/-! ## Frames -/

theorem DirectAck.get_reads (ack : DirectAck) : Reads get ack.put ack := by
  cases ack with
  | received => exact Dec.variant_pure_reads rfl
  | refused reason =>
      refine Dec.variant_reads (Reads.map ?_)
      cases reason <;> exact Dec.variant_pure_reads rfl

theorem DirectAck.length_encode_le (ack : DirectAck) :
    ack.encode.length ≤ 64 := by
  cases ack with
  | received => decide +kernel
  | refused reason => cases reason <;> decide +kernel

/-- An acknowledgement is read as it was written. -/
theorem DirectAck.decode_encode (ack : DirectAck) :
    decode (ack.encode.take maxMessageBytes) = .ok ack := by
  have hlen := ack.length_encode_le
  have htake : ack.encode.take maxMessageBytes = ack.encode := by
    refine List.take_of_length_le (hlen.trans ?_)
    rw [maxMessageBytes]
    omega
  rw [htake]
  refine Dec.framed_reads ack.get_reads (Reads.pure ack) ?_
  exact hlen.trans_lt (by norm_num)

namespace DirectMessage

theorem length_encode_le {m : DirectMessage} (h : m.Fits C validKey) :
    m.encode.length ≤ maxDirectMessageBytes := by
  have hdomain : (Enc.domain wireDomain).length = 31 := by decide +kernel
  have hutf : ∀ s : String,
      s.toByteArray.data.toList.length = s.utf8ByteSize := by
    intro s
    rw [Array.length_toList]
    rfl
  have hlabel := h.label.2
  have hkind := h.kind.2
  have hsize := h.size
  rw [maxDirectLabelBytes] at hlabel hkind
  simp only [encode, put, List.length_append, hdomain, Enc.str, Enc.bytes,
    Enc.u64, Enc.length_bigEndian, Enc.fixed, Bytes.length_eq,
    PerNetworkIdentityId.encode, hutf]
  unfold maxDirectMessageBytes
  omega

/-- A message that fits is read as it was written. -/
theorem decode_encode_take {m : DirectMessage} (h : m.Fits C validKey) :
    decode C validKey (m.encode.take maxDirectMessageBytes) = .ok m := by
  have hlen := length_encode_le h
  have htake : m.encode.take maxDirectMessageBytes = m.encode :=
    List.take_of_length_le hlen
  rw [htake]
  refine faithful.back m h (hlen.trans_lt ?_)
  unfold maxDirectMessageBytes maxDirectPayloadBytes
  norm_num

/-- What a message says is what its sender was given. -/
theorem create_says {sender : PerNetworkIdentity C validKey}
    {label kind : String} {payload : List UInt8} {m : DirectMessage}
    (h : create sender label kind payload = .ok m) :
    m.«namespace» = label ∧ m.kind = kind ∧ m.payload = payload := by
  obtain ⟨⟨⟩, -, h⟩ := Run.bind_ok.1 h
  obtain ⟨⟨⟩, -, h⟩ := Run.bind_ok.1 h
  obtain ⟨⟨⟩, -, h⟩ := Run.bind_ok.1 h
  cases h
  exact ⟨rfl, rfl, rfl⟩

/-- What is reported of a message that is acknowledged so. -/
def told (m : DirectMessage) : DirectAck → DirectEvent
  | .received => .directReceived m
  | .refused reason => .directRefused m.sender reason

end DirectMessage

namespace DirectNode

variable {ι : Type} {identities : ι → PerNetworkIdentity C validKey}

/-! ## What becomes of a frame -/

/-- A message from another than its sender is dropped, any other acknowledged
and reported alike. -/
theorem receiveDirect_spec (node : DirectNode) (peer : PerNetworkIdentityId)
    (m : DirectMessage) :
    ((node.receiveDirect peer m).1 = none ∧
        (node.receiveDirect peer m).2.2 = none) ∨
      ∃ ack, m.sender = peer ∧
        (node.receiveDirect peer m).1 = some (m.told ack) ∧
        (node.receiveDirect peer m).2.2 = some ack := by
  unfold receiveDirect
  split
  · exact .inl ⟨rfl, rfl⟩
  · next hpeer =>
      refine .inr ?_
      simp only
      split
      · exact ⟨.received, not_not.1 hpeer, rfl, rfl⟩
      · next reason _ => exact ⟨.refused reason, not_not.1 hpeer, rfl, rfl⟩

theorem takeFrame_request
    (identities : ι → PerNetworkIdentity C validKey) (node : DirectNode)
    (peer : ι) (id : ℕ)
    (bytes : List UInt8) :
    ((node.takeFrame identities peer (.request id bytes)).1 = none ∧
        (node.takeFrame identities peer (.request id bytes)).2.2 = none) ∨
      ∃ m ack, DirectMessage.decode C validKey
          (bytes.take maxDirectMessageBytes) = .ok m ∧
        m.sender = (identities peer).id ∧
        (node.takeFrame identities peer (.request id bytes)).1 =
          some (m.told ack) ∧
        (node.takeFrame identities peer (.request id bytes)).2.2 =
          some (.response id ack.encode) := by
  unfold takeFrame
  simp only
  split
  · next m hm =>
      rcases node.receiveDirect_spec (identities peer).id m with h | h
      · exact .inl ⟨h.1, by rw [h.2]; rfl⟩
      · obtain ⟨ack, hsender, hreport, hack⟩ := h
        exact .inr ⟨m, ack, hm, hsender, hreport, by rw [hack]; rfl⟩
  · exact .inl ⟨rfl, rfl⟩

theorem takeFrame_response
    (identities : ι → PerNetworkIdentity C validKey) (node : DirectNode)
    (peer : ι) (id : ℕ)
    (bytes : List UInt8) :
    (node.takeFrame identities peer (.response id bytes)).2.2 = none ∧
      ((∃ ack, DirectAck.decode (bytes.take maxMessageBytes) = .ok ack ∧
          (node.takeFrame identities peer (.response id bytes)).1 =
            some (.directDelivered id (identities peer).id ack)) ∨
        (node.takeFrame identities peer (.response id bytes)).1 =
          some (.directFailed id (identities peer).id)) := by
  unfold takeFrame
  simp only
  split
  · next ack hack => exact ⟨rfl, .inl ⟨ack, hack, rfl⟩⟩
  · exact ⟨rfl, .inr rfl⟩

/-- What a call sends: the frame of a peer that runs other code, or a message
under the number of the next request. -/
theorem call_sends {node : DirectNode} {i target : ι} {asked : Call ι}
    {frame : Frame}
    (h : (node.call identities i asked).2 = some (target, frame)) :
    asked = .inject target frame ∨ ∃ label kind payload m,
      asked = .sendDirect target label kind payload ∧
      DirectMessage.create (identities i) label kind payload = .ok m ∧
      frame = .request node.nextRequest m.encode ∧
      (node.call identities i asked).1.nextRequest = node.nextRequest + 1 := by
  cases asked with
  | handleDirect label kind => cases h
  | wait later => cases h
  | inject other sent =>
      cases h
      exact .inl rfl
  | sendDirect other label kind payload =>
      unfold call at h ⊢
      simp only at h ⊢
      split at h
      · next m hm =>
          cases h
          exact .inr ⟨label, kind, payload, m, rfl, hm, rfl, rfl⟩
      · cases h

/-- Taking a frame starts no request. -/
theorem takeFrame_nextRequest
    (identities : ι → PerNetworkIdentity C validKey) (node : DirectNode)
    (peer : ι) (frame : Frame) :
    (node.takeFrame identities peer frame).2.1.nextRequest =
      node.nextRequest := by
  cases frame with
  | response id bytes =>
      unfold takeFrame
      simp only
      split <;> rfl
  | request id bytes =>
      unfold takeFrame
      simp only
      split
      · unfold receiveDirect
        split
        · rfl
        · simp only
          split <;> rfl
      · rfl

/-! ## Where frames come from -/

abbrev Net (ι : Type) := Network.Net ι DirectNode Frame

abbrev Event (ι : Type) :=
  Network.Event ι Frame (Call ι) (Option DirectEvent)

/-- What is reported, and where. -/
def reported (e : Event ι) : Option (ι × DirectEvent) :=
  e.arrived.bind fun a => a.2.map fun event => (a.1.target, event)

/-- What is asked, and of whom. -/
def asked (e : Event ι) : Option (ι × Call ι) :=
  match e.action with
  | .act i call => some (i, call)
  | _ => none

variable {net : Net ι} {action : Network.Action ι (Call ι)} {s r : ι} {id : ℕ}
  {bytes : List UInt8}

/-- A request goes out with the call that sends it. -/
theorem sent_request [DecidableEq ι]
    (hcode : ∀ target frame, action ≠ .act s (.inject target frame))
    (h : (Network.watch (protocol identities) net action).sent =
      some ⟨s, r, .request id bytes⟩) :
    ∃ label kind payload m,
      action = .act s (.sendDirect r label kind payload) ∧
      DirectMessage.create (identities s) label kind payload = .ok m ∧
      id = (net.nodes s).nextRequest ∧ bytes = m.encode ∧
      ((Network.step (protocol identities) net action).2.nodes s).nextRequest =
        id + 1 := by
  rcases Network.watch_sent h with hcall | hanswer
  · obtain ⟨i, asked, ⟨target, frame⟩, rfl, hsent, heq⟩ := hcall
    cases heq
    rcases call_sends hsent with rfl | hsends
    · exact absurd rfl (hcode _ _)
    · obtain ⟨label, kind, payload, m, rfl, hm, hframe, hnext⟩ := hsends
      cases hframe
      refine ⟨label, kind, payload, m, rfl, hm, rfl, rfl, ?_⟩
      rw [Network.step_act_self]
      exact hnext
  · obtain ⟨a, answer, -, hanswer, heq⟩ := hanswer
    cases heq
    change ((net.nodes a.1.target).takeFrame identities a.1.source
      a.1.message).2.2 = some _ at hanswer
    cases hmessage : a.1.message with
    | request other bytes' =>
        rw [hmessage] at hanswer
        rcases takeFrame_request identities
          (net.nodes a.1.target) a.1.source other bytes' with h | h
        · rw [h.2] at hanswer
          cases hanswer
        · obtain ⟨m, ack, -, -, -, hack⟩ := h
          rw [hack] at hanswer
          cases hanswer
    | response other bytes' =>
        rw [hmessage, (takeFrame_response _ _ _ _ _).1] at hanswer
        cases hanswer

/-- A response goes out to the request it answers. -/
theorem sent_response
    (hcode : ∀ target frame, action ≠ .act r (.inject target frame))
    (h : (Network.watch (protocol identities) net action).sent =
      some ⟨r, s, .response id bytes⟩) :
    ∃ asking m ack, (Network.watch (protocol identities) net action).arrived =
        some (⟨s, r, .request id asking⟩, some (m.told ack)) ∧
      DirectMessage.decode C validKey (asking.take maxDirectMessageBytes) =
        .ok m ∧ bytes = ack.encode := by
  rcases Network.watch_sent h with hcall | hanswer
  · obtain ⟨i, asked, ⟨target, frame⟩, rfl, hsent, heq⟩ := hcall
    cases heq
    rcases call_sends hsent with rfl | hsends
    · exact absurd rfl (hcode _ _)
    · obtain ⟨label, kind, payload, m, -, -, hframe, -⟩ := hsends
      cases hframe
  · obtain ⟨⟨⟨source, target, message⟩, report⟩, answer, harrived, hanswer,
      heq⟩ := hanswer
    obtain ⟨hreport, -⟩ := Network.watch_arrived harrived
    cases heq
    change ((net.nodes target).takeFrame identities source message).2.2 =
      some _ at hanswer
    change report = ((net.nodes target).takeFrame identities source message).1
      at hreport
    cases message with
    | request other asking =>
        rcases takeFrame_request identities (net.nodes target) source other
          asking with h | h
        · rw [h.2] at hanswer
          cases hanswer
        · obtain ⟨m, ack, hm, -, htold, hack⟩ := h
          rw [hack] at hanswer
          cases hanswer
          rw [hreport, htold] at harrived
          exact ⟨asking, m, ack, harrived, hm, rfl⟩
    | response other bytes' =>
        rw [(takeFrame_response _ _ _ _ _).1] at hanswer
        cases hanswer

/-- What is reported was made of a frame that arrived. -/
theorem reported_from {event : DirectEvent} {i : ι}
    (h : reported (Network.watch (protocol identities) net action) =
      some (i, event)) :
    ∃ source message,
      (Network.watch (protocol identities) net action).arrived =
        some (⟨source, i, message⟩, some event) ∧
      ((net.nodes i).takeFrame identities source message).1 = some event := by
  obtain ⟨⟨⟨source, target, message⟩, report⟩, harrived, hreport⟩ :=
    Option.bind_eq_some_iff.1 h
  obtain ⟨event', hevent, heq⟩ := Option.map_eq_some_iff.1 hreport
  cases heq
  change report = some event at hevent
  obtain ⟨hmade, -⟩ := Network.watch_arrived harrived
  rw [hevent] at harrived hmade
  exact ⟨source, message, harrived, hmade.symm⟩

/-- A message is reported as received off the connection of its sender. -/
theorem received_from {m : DirectMessage}
    (h : reported (Network.watch (protocol identities) net action) =
      some (r, .directReceived m)) :
    ∃ source id bytes,
      (Network.watch (protocol identities) net action).arrived =
        some (⟨source, r, .request id bytes⟩, some (.directReceived m)) ∧
      m.sender = (identities source).id ∧
      DirectMessage.decode C validKey (bytes.take maxDirectMessageBytes) =
        .ok m := by
  obtain ⟨source, message, harrived, hmade⟩ := reported_from h
  cases message with
  | request id bytes =>
      rcases takeFrame_request identities (net.nodes r) source
        id bytes with hnone | hsome
      · rw [hnone.1] at hmade
        cases hmade
      · obtain ⟨m', ack, hm, hsender, htold, -⟩ := hsome
        rw [htold] at hmade
        cases ack with
        | refused reason => cases hmade
        | received =>
            cases hmade
            exact ⟨source, id, bytes, harrived, hsender, hm⟩
  | response id bytes =>
      rcases (takeFrame_response identities (net.nodes r)
        source id bytes).2 with hack | hfailed
      · obtain ⟨ack, -, hack⟩ := hack
        rw [hack] at hmade
        cases hmade
      · rw [hfailed] at hmade
        cases hmade

/-- So is an acknowledgement, off the connection of who gives it. -/
theorem delivered_from {peer : PerNetworkIdentityId} {ack : DirectAck}
    (h : reported (Network.watch (protocol identities) net action) =
      some (s, .directDelivered id peer ack)) :
    ∃ source bytes,
      (Network.watch (protocol identities) net action).arrived =
        some (⟨source, s, .response id bytes⟩,
          some (.directDelivered id peer ack)) ∧
      (identities source).id = peer ∧
      DirectAck.decode (bytes.take maxMessageBytes) = .ok ack := by
  obtain ⟨source, message, harrived, hmade⟩ := reported_from h
  cases message with
  | request other bytes =>
      rcases takeFrame_request identities (net.nodes s) source
        other bytes with hnone | hsome
      · rw [hnone.1] at hmade
        cases hmade
      · obtain ⟨m, told, -, -, htold, -⟩ := hsome
        rw [htold] at hmade
        cases told <;> cases hmade
  | response other bytes =>
      rcases (takeFrame_response identities (net.nodes s)
        source other bytes).2 with hack | hfailed
      · obtain ⟨ack', hread, hack⟩ := hack
        rw [hack] at hmade
        cases hmade
        exact ⟨source, bytes, harrived, rfl, hread⟩
      · rw [hfailed] at hmade
        cases hmade

/-! ## Histories -/

section Runs

variable [DecidableEq ι] {actions : List (Network.Action ι (Call ι))}

/-- Nobody has sent anything. -/
def fresh (ι : Type) : Net ι := .start fun _ => new

/-- What happens when nodes with these identities act. -/
def history (identities : ι → PerNetworkIdentity C validKey)
    (actions : List (Network.Action ι (Call ι))) : List (Event ι) :=
  Network.history (protocol identities) (fresh ι) actions

/-- A node that sends what this code sends. -/
def RunsCode (actions : List (Network.Action ι (Call ι))) (i : ι) : Prop :=
  ∀ target frame, .act i (.inject target frame) ∉ actions

omit [DecidableEq ι] in
theorem RunsCode.avoids (h : RunsCode actions s) (haction : action ∈ actions)
    (target : ι) (frame : Frame) : action ≠ .act s (.inject target frame) :=
  fun heq => h target frame (heq ▸ haction)

/-- A packet that carries `m` from `s` to `r`. -/
def Carries (C : Crypto) (validKey : Bytes 32 → Bool) (m : DirectMessage)
    (s r : ι) (p : Network.Packet ι Frame) : Prop :=
  ∃ id bytes, p = ⟨s, r, .request id bytes⟩ ∧
    DirectMessage.decode C validKey (bytes.take maxDirectMessageBytes) = .ok m

/-- A message is taken no more often than it was handed over. -/
theorem received_le_sent
    (hdistinct : Function.Injective fun i => (identities i).id)
    (hs : RunsCode actions s) {m : DirectMessage}
    (hm : m.sender = (identities s).id) :
    (history identities actions).countP (fun e =>
        decide (reported e = some (r, .directReceived m))) ≤
      (history identities actions).countP (fun e =>
        decide (asked e =
          some (s, .sendDirect r m.«namespace» m.kind m.payload))) := by
  classical
  refine Network.countP_le (protocol identities) _ actions
    (fun p => decide (Carries C validKey m s r p)) ?_ ?_
  · intro e he hreport
    obtain ⟨net, action, -, rfl⟩ := Network.mem_history he
    obtain ⟨source, id, bytes, harrived, hsender, hread⟩ :=
      received_from (of_decide_eq_true hreport)
    obtain rfl : source = s := hdistinct (hsender.symm.trans hm)
    exact ⟨_, harrived, decide_eq_true ⟨id, bytes, rfl, hread⟩⟩
  · intro e he p hsent hp
    obtain ⟨net, action, haction, rfl⟩ := Network.mem_history he
    obtain ⟨id, bytes, rfl, hread⟩ := of_decide_eq_true hp
    obtain ⟨label, kind, payload, m', rfl, hcreate, -, rfl, -⟩ :=
      sent_request (hs.avoids haction) hsent
    rw [DirectMessage.decode_encode_take
      (DirectMessage.create_fits hcreate)] at hread
    cases hread
    obtain ⟨rfl, rfl, rfl⟩ := DirectMessage.create_says hcreate
    exact decide_eq_true rfl

/-- An event at which `s` is told of request `id` by `peer`. -/
def tells (s : ι) (id : ℕ) (peer : PerNetworkIdentityId) (e : Event ι) : Bool :=
  match reported e with
  | some (i, .directDelivered other from' _) =>
      decide (i = s ∧ other = id ∧ from' = peer)
  | _ => false

/-- The number of the next request only rises. -/
theorem nextRequest_step (identities : ι → PerNetworkIdentity C validKey)
    (net : Net ι)
    (action : Network.Action ι (Call ι)) :
    (net.nodes s).nextRequest ≤ ((Network.step (protocol identities) net
      action).2.nodes s).nextRequest := by
  refine Network.step_node (P := protocol identities)
    (R := fun n n' => n.nextRequest ≤ n'.nextRequest) s (fun n => le_rfl)
    (fun asked n => ?_) (fun j frame n => ?_) net action
  · change n.nextRequest ≤ (n.call identities s asked).1.nextRequest
    cases asked with
    | handleDirect label kind => exact le_rfl
    | wait later => exact le_rfl
    | inject target frame => exact le_rfl
    | sendDirect target label kind payload =>
        unfold call
        simp only
        split
        · exact Nat.le_succ _
        · exact le_rfl
  · exact (takeFrame_nextRequest identities n j frame).ge

/-- A node numbers its requests apart. -/
theorem requests_le_one (hs : RunsCode actions s) [DecidablePred fun e :
    Event ι => ∃ bytes, e.sent = some ⟨s, r, .request id bytes⟩] :
    (history identities actions).countP (fun e =>
      decide (∃ bytes, e.sent = some ⟨s, r, .request id bytes⟩)) ≤ 1 := by
  refine (Network.history_rule (protocol identities) (fresh ι) actions
    (R := fun es net =>
      es.countP (fun e => decide (∃ bytes, e.sent =
        some ⟨s, r, .request id bytes⟩)) ≤ 1 ∧
      ((net.nodes s).nextRequest ≤ id → es.countP (fun e =>
        decide (∃ bytes, e.sent = some ⟨s, r, .request id bytes⟩)) = 0))
    ⟨Nat.zero_le _, fun _ => rfl⟩ ?_).1
  intro es net action haction hso
  have hmono := nextRequest_step (s := s) identities net action
  rw [List.countP_append, List.countP_singleton]
  split
  · next hsent =>
      obtain ⟨bytes, hsent⟩ := of_decide_eq_true hsent
      obtain ⟨label, kind, payload, m, -, -, rfl, -, hnext⟩ :=
        sent_request (hs.avoids haction) hsent
      rw [hso.2 le_rfl]
      exact ⟨le_rfl, fun hle => by omega⟩
  · exact ⟨hso.1, fun hle => hso.2 (hmono.trans hle)⟩

/-- An acknowledgement comes once at most. -/
theorem delivered_le_one
    (hdistinct : Function.Injective fun i => (identities i).id)
    (hs : RunsCode actions s) (hr : RunsCode actions r) :
    (history identities actions).countP (tells s id (identities r).id) ≤ 1 := by
  classical
  have htold := Network.countP_le (protocol identities) (fun _ => new) actions
    (fun p => decide (∃ bytes, p = ⟨r, s, .response id bytes⟩))
    (r := tells s id (identities r).id)
    (c := fun e => decide (∃ bytes, e.sent =
      some ⟨r, s, .response id bytes⟩)) ?_ ?_
  have hasked := Network.countP_le (protocol identities) (fun _ => new) actions
    (fun p => decide (∃ bytes, p = ⟨s, r, .request id bytes⟩))
    (r := fun e => decide (∃ bytes, e.sent =
      some ⟨r, s, .response id bytes⟩))
    (c := fun e => decide (∃ bytes, e.sent =
      some ⟨s, r, .request id bytes⟩)) ?_ ?_
  · exact htold.trans (hasked.trans (requests_le_one hs))
  · intro e he hsent
    obtain ⟨net, action, haction, rfl⟩ := Network.mem_history he
    obtain ⟨bytes, hsent⟩ := of_decide_eq_true hsent
    obtain ⟨asking, m, ack, harrived, -, -⟩ :=
      sent_response (hr.avoids haction) hsent
    exact ⟨_, harrived, decide_eq_true ⟨asking, rfl⟩⟩
  · intro e he p hsent hp
    obtain ⟨bytes, rfl⟩ := of_decide_eq_true hp
    exact decide_eq_true ⟨bytes, hsent⟩
  · intro e he htells
    obtain ⟨net, action, -, rfl⟩ := Network.mem_history he
    unfold tells at htells
    split at htells
    · next i other peer ack hreported =>
        obtain ⟨rfl, rfl, rfl⟩ := of_decide_eq_true htells
        obtain ⟨source, bytes, harrived, hpeer, -⟩ := delivered_from hreported
        obtain rfl : source = r := hdistinct hpeer
        exact ⟨_, harrived, decide_eq_true ⟨bytes, rfl⟩⟩
    · cases htells
  · intro e he p hsent hp
    obtain ⟨bytes, rfl⟩ := of_decide_eq_true hp
    exact decide_eq_true ⟨bytes, hsent⟩

/-- It says what became of the message it was asked for. -/
theorem delivered_means
    (hdistinct : Function.Injective fun i => (identities i).id)
    (hs : RunsCode actions s) (hr : RunsCode actions r) {e : Event ι}
    (he : e ∈ history identities actions) {ack : DirectAck}
    (h : reported e = some (s, .directDelivered id (identities r).id ack)) :
    ∃ m : DirectMessage,
      (∃ e' ∈ history identities actions,
        reported e' = some (r, m.told ack)) ∧
      ∃ e' ∈ history identities actions,
        asked e' = some (s, .sendDirect r m.«namespace» m.kind m.payload) ∧
          e'.sent = some ⟨s, r, .request id m.encode⟩ := by
  obtain ⟨net, action, -, rfl⟩ := Network.mem_history he
  obtain ⟨source, bytes, harrived, hpeer, hread⟩ := delivered_from h
  obtain rfl : source = r := hdistinct hpeer
  obtain ⟨answering, hanswering, hsent⟩ :=
    Network.arrived_was_sent he harrived
  obtain ⟨net', action', haction', rfl⟩ := Network.mem_history hanswering
  obtain ⟨asking, m, ack', harrived', hm, rfl⟩ :=
    sent_response (hr.avoids haction') hsent
  rw [DirectAck.decode_encode] at hread
  cases hread
  obtain ⟨requesting, hrequesting, hsent'⟩ :=
    Network.arrived_was_sent hanswering harrived'
  obtain ⟨net'', action'', haction'', rfl⟩ := Network.mem_history hrequesting
  obtain ⟨label, kind, payload, m', rfl, hcreate, -, rfl, -⟩ :=
    sent_request (hs.avoids haction'') hsent'
  rw [DirectMessage.decode_encode_take
    (DirectMessage.create_fits hcreate)] at hm
  cases hm
  obtain ⟨rfl, rfl, rfl⟩ := DirectMessage.create_says hcreate
  refine ⟨_, ⟨_, hanswering, ?_⟩, _, hrequesting, rfl, hsent'⟩
  unfold reported
  rw [harrived']
  rfl

/-- Direct messages are their senders'. Members may copy what they see and send
anything to anybody. Under the name of one that runs this code no message is
received by another more often than it handed that message to it. Between two
that run it a request is acknowledged once at most, and the acknowledgement
says what was reported of the message that was handed over. -/
theorem direct_messages_are_their_senders
    (identities : ι → PerNetworkIdentity C validKey)
    (hdistinct : Function.Injective fun i => (identities i).id)
    (actions : List (Network.Action ι (Call ι))) (s r : ι)
    (hs : RunsCode actions s) :
    (∀ m : DirectMessage, m.sender = (identities s).id →
      (history identities actions).countP (fun e =>
          decide (reported e = some (r, .directReceived m))) ≤
        (history identities actions).countP (fun e =>
          decide (asked e =
            some (s, .sendDirect r m.«namespace» m.kind m.payload)))) ∧
    (RunsCode actions r → ∀ id,
      (history identities actions).countP (tells s id (identities r).id) ≤ 1 ∧
      ∀ e ∈ history identities actions, ∀ ack,
        reported e = some (s, .directDelivered id (identities r).id ack) →
        ∃ m : DirectMessage,
          (∃ e' ∈ history identities actions,
            reported e' = some (r, m.told ack)) ∧
          ∃ e' ∈ history identities actions,
            asked e' =
                some (s, .sendDirect r m.«namespace» m.kind m.payload) ∧
              e'.sent = some ⟨s, r, .request id m.encode⟩) :=
  ⟨fun _ hm => received_le_sent hdistinct hs hm,
    fun hr _ => ⟨delivered_le_one hdistinct hs hr,
      fun _ he _ h => delivered_means hdistinct hs hr he h⟩⟩

end Runs

/-! ## A message that is copied -/

/-- Identities 0, 1 and 2. -/
def trio (i : Fin 3) : PerNetworkIdentity .sample (fun _ => true) where
  id := Sample.identity i
  sign _ := Sample.signature i 0
  valid := rfl
  verifies payload := Sample.verify_first i payload

/-- What 0 says to 1. -/
def greeting : DirectMessage :=
  ⟨Sample.identity 0, "app", "hello", [1], Sample.signature 0 0⟩

/-- It is taken and acknowledged. Then 2 sends 1 a copy of it, and 0 an
acknowledgement of its own. -/
def copied : List (Network.Action (Fin 3) (Call (Fin 3))) :=
  [.act 1 (.handleDirect "app" "hello"),
    .act 0 (.sendDirect 1 "app" "hello" [1]), .deliver 0, .deliver 1,
    .act 2 (.inject 1 (.request 0 greeting.encode)), .deliver 2,
    .act 2 (.inject 0 (.response 0 DirectAck.received.encode)), .deliver 3]

/-- The copy is not taken, and 1 is heard once. -/
theorem direct_messages_are_their_senders_copied :
    (history trio copied).countP (fun e =>
        decide (reported e = some (1, .directReceived greeting))) = 1 ∧
      (history trio copied).countP (tells 0 0 (trio 1).id) = 1 := by
  have hcode : ∀ i : Fin 3, i ≠ 2 → RunsCode copied i := by
    intro i hi target frame h
    simp only [copied, List.mem_cons, List.not_mem_nil, reduceCtorEq,
      Network.Action.act.injEq, and_false, or_false,
      false_or] at h
    rcases h with h | h <;> exact hi h.1
  obtain ⟨hreceived, htold⟩ := direct_messages_are_their_senders trio
    (by decide +kernel) copied 0 1 (hcode 0 (by decide))
  exact ⟨le_antisymm ((hreceived greeting rfl).trans (by decide +kernel))
      (by decide +kernel),
    le_antisymm (htold (hcode 1 (by decide)) 0).1 (by decide +kernel)⟩

end DirectNode

end Intranet
