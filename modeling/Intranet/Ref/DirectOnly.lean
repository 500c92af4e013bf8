import Intranet.Lib.BTree

/-!
# Keeping protocols off relayed circuits

`direct_only.rs`. A wrapper around one protocol's behaviour: on a direct
connection it is invisible, and a circuit is kept from the inner behaviour, its
establishment, its closure and the counts it would take part in.

The inner behaviour is code of another package. So each callback returns what
it calls the inner behaviour with, and what the inner behaviour answers is an
argument. `ε` is the type of the events it sends to its handlers.
-/

namespace Intranet

/-- The identifier of a connection, unique for the life of a swarm. -/
@[ext]
structure ConnectionId where
  value : UInt64
deriving DecidableEq

instance : LinearOrder ConnectionId :=
  LinearOrder.lift' (fun id : ConnectionId => id.value.toNat)
    fun _ _ h => ConnectionId.ext (UInt64.toNat_inj.1 h)

@[ext]
structure PeerId where
  bytes : List UInt8
deriving DecidableEq

instance : LinearOrder PeerId :=
  LinearOrder.lift' (fun id : PeerId => id.bytes.map UInt8.toNat)
    fun _ _ h => PeerId.ext
      (List.map_injective_iff.2 (fun _ _ => UInt8.toNat_inj.1) h)

/-- One part of an address. -/
inductive AddressPart where
  | p2pCircuit
  | other (bytes : List UInt8)
deriving DecidableEq

abbrev Multiaddr := List AddressPart

/-- Whether an address routes through a relay circuit. -/
def throughACircuit (address : Multiaddr) : Bool :=
  address.any fun part => part = .p2pCircuit

/-- Why a dial failed. -/
inductive DialError where
  | localPeerId
  | noAddresses
  | dialPeerConditionFalse
  | aborted
  | wrongPeerId
  | denied
  | transport
deriving DecidableEq

/-- What the swarm tells its behaviours. -/
inductive FromSwarm where
  | connectionEstablished (peer : PeerId) (connection : ConnectionId)
      (otherEstablished : ℕ)
  | connectionClosed (peer : PeerId) (connection : ConnectionId)
      (remainingEstablished : ℕ)
  | addressChange (peer : PeerId) (connection : ConnectionId)
  | dialFailure (peer : Option PeerId) (error : DialError)
      (connection : ConnectionId)
  | listenFailure (connection : ConnectionId)
  | other
deriving DecidableEq

inductive NotifyHandler where
  | one (connection : ConnectionId)
  | any
deriving DecidableEq

/-- What a behaviour asks of the swarm. -/
inductive ToSwarm (ε : Type) where
  | dial (connection : ConnectionId) (peer : Option PeerId)
  | notifyHandler (peer : PeerId) (handler : NotifyHandler) (event : ε)
  | other
deriving DecidableEq

/-- The handler a new connection is given: the inner behaviour's, or a dummy
that refuses every stream. -/
inductive Handler where
  | inner
  | dummy
deriving DecidableEq

/-- A call of the inner behaviour. -/
inductive InnerCall where
  | pendingInbound (connection : ConnectionId)
  | establishedInbound (connection : ConnectionId) (peer : PeerId)
  | pendingOutbound (connection : ConnectionId) (peer : Option PeerId)
  | establishedOutbound (connection : ConnectionId) (peer : PeerId)
  | swarmEvent (event : FromSwarm)
  | handlerEvent (peer : PeerId) (connection : ConnectionId)
deriving DecidableEq

/-- One protocol's behaviour, kept off relayed circuits. -/
@[ext]
structure DirectOnly where
  relayed : BTreeMap ConnectionId PeerId
  dialling : BTreeSet ConnectionId
  permitted : BTreeMap PeerId (List ConnectionId)
deriving DecidableEq

namespace DirectOnly

def new : DirectOnly := ⟨∅, ∅, ∅⟩

def permittedFor (d : DirectOnly) (peer : PeerId) : ℕ :=
  d.permitted[peer]?.elim 0 List.length

/-- Whether a peer is reachable only through a circuit just now. -/
def circuitOnly (d : DirectOnly) (peer : PeerId) : Bool :=
  d.permittedFor peer = 0 && d.relayed.values.any fun owner => owner = peer

/-! ## Connection handling -/

/-- `handle_pending_inbound_connection`. -/
def pendingInbound (d : DirectOnly) (connection : ConnectionId)
    (localAddr : Multiaddr) : List InnerCall × DirectOnly :=
  if throughACircuit localAddr then ([], d)
  else ([.pendingInbound connection], d)

/-- `handle_established_inbound_connection`: the handler, unless the inner
behaviour denies a connection it is asked about. -/
def establishedInbound (d : DirectOnly) (connection : ConnectionId)
    (peer : PeerId) (localAddr : Multiaddr) (denied : Bool) :
    Option Handler × List InnerCall × DirectOnly :=
  if throughACircuit localAddr then
    (some .dummy, [], { d with relayed := d.relayed.insert connection peer })
  else
    (if denied then none else some .inner,
      [.establishedInbound connection peer], d)

/-- `handle_pending_outbound_connection`. -/
def pendingOutbound (d : DirectOnly) (connection : ConnectionId)
    (peer : Option PeerId) : List InnerCall × DirectOnly :=
  ([.pendingOutbound connection peer], d)

/-- `handle_established_outbound_connection`. -/
def establishedOutbound (d : DirectOnly) (connection : ConnectionId)
    (peer : PeerId) (addr : Multiaddr) (denied : Bool) :
    Option Handler × List InnerCall × DirectOnly :=
  if throughACircuit addr then
    let d := { d with relayed := d.relayed.insert connection peer }
    if d.dialling.contains connection then
      (some .dummy,
        [.swarmEvent (.dialFailure (some peer) .aborted connection)],
        { d with dialling := d.dialling.erase connection })
    else (some .dummy, [], d)
  else
    (if denied then none else some .inner,
      [.establishedOutbound connection peer],
      { d with dialling := d.dialling.erase connection })

/-! ## Events -/

/-- The entry of a peer after one of its connections is gone: an empty list
leaves the map. -/
def release (permitted : BTreeMap PeerId (List ConnectionId)) (peer : PeerId)
    (connection : ConnectionId) : BTreeMap PeerId (List ConnectionId) :=
  match permitted[peer]? with
  | none => permitted
  | some connections =>
      let left := connections.filter (· ≠ connection)
      if left.isEmpty then permitted.erase peer
      else permitted.insert peer left

/-- `on_swarm_event`. The arms are tried in the order of the source. -/
def onSwarmEvent (d : DirectOnly) (event : FromSwarm) :
    List InnerCall × DirectOnly :=
  match event with
  | .dialFailure peer error connection =>
      if d.dialling.contains connection then
        ([.swarmEvent (.dialFailure peer error connection)],
          { d with dialling := d.dialling.erase connection })
      else if d.relayed.contains connection then
        ([], { d with relayed := d.relayed.erase connection })
      else ([.swarmEvent (.dialFailure peer error connection)], d)
  | .connectionEstablished peer connection _ =>
      if d.relayed.contains connection then ([], d)
      else
        let connections := d.permitted[peer]?.getD []
        ([.swarmEvent (.connectionEstablished peer connection
            (d.permittedFor peer))],
          { d with permitted :=
              d.permitted.insert peer (connections ++ [connection]) })
  | .connectionClosed peer connection _ =>
      if d.relayed.contains connection then
        ([], { d with relayed := d.relayed.erase connection })
      else
        let d := { d with permitted := release d.permitted peer connection }
        ([.swarmEvent (.connectionClosed peer connection
          (d.permittedFor peer))], d)
  | .addressChange peer connection =>
      if d.relayed.contains connection then ([], d)
      else ([.swarmEvent (.addressChange peer connection)], d)
  | .listenFailure connection =>
      if d.relayed.contains connection then
        ([], { d with relayed := d.relayed.erase connection })
      else ([.swarmEvent (.listenFailure connection)], d)
  | .other => ([.swarmEvent .other], d)

/-- `on_connection_handler_event`. The dummy handler has no events. -/
def onConnectionHandlerEvent (d : DirectOnly) (peer : PeerId)
    (connection : ConnectionId) : List InnerCall × DirectOnly :=
  ([.handlerEvent peer connection], d)

/-! ## Polling -/

/-- Where a notification goes: to a connection that is no circuit, or to the
oldest permitted one. -/
def target (d : DirectOnly) (peer : PeerId) :
    NotifyHandler → Option ConnectionId
  | .one connection =>
      if d.relayed.contains connection then none else some connection
  | .any => d.permitted[peer]?.bind List.head?

/-- `poll`: the loop over what the inner behaviour's polls come to, `none` at
the end of the list being its `Pending`. -/
def poll {ε : Type} (d : DirectOnly) :
    List (ToSwarm ε) → Option (ToSwarm ε) × List InnerCall × DirectOnly
  | [] => (none, [], d)
  | .notifyHandler peer handler event :: rest =>
      match d.target peer handler with
      | some connection =>
          (some (.notifyHandler peer (.one connection) event), [], d)
      | none => d.poll rest
  | .dial connection peer :: rest =>
      if peer.any d.circuitOnly then
        let (emitted, calls, d) := d.poll rest
        (emitted, .swarmEvent (.dialFailure peer .aborted connection) :: calls,
          d)
      else
        (some (.dial connection peer), [],
          { d with dialling := d.dialling.insert connection })
  | .other :: _ => (some .other, [], d)

end DirectOnly

/-! ## Callbacks -/

/-- A callback of the swarm, with what the inner behaviour answers. -/
inductive Callback (ε : Type) where
  | pendingInbound (connection : ConnectionId) (localAddr : Multiaddr)
  | establishedInbound (connection : ConnectionId) (peer : PeerId)
      (localAddr : Multiaddr) (denied : Bool)
  | pendingOutbound (connection : ConnectionId) (peer : Option PeerId)
  | establishedOutbound (connection : ConnectionId) (peer : PeerId)
      (addr : Multiaddr) (denied : Bool)
  | swarmEvent (event : FromSwarm)
  | handlerEvent (peer : PeerId) (connection : ConnectionId)
  | poll (inner : List (ToSwarm ε))

/-- What a callback comes to: calls of the inner behaviour, a handler for a
new connection, and what a poll asks of the swarm. -/
structure Reaction (ε : Type) where
  calls : List InnerCall
  handler : Option Handler
  emitted : Option (ToSwarm ε)

/-- One callback. -/
def DirectOnly.callback {ε : Type} (d : DirectOnly) :
    Callback ε → Reaction ε × DirectOnly
  | .pendingInbound connection localAddr =>
      let (calls, d) := d.pendingInbound connection localAddr
      (⟨calls, none, none⟩, d)
  | .establishedInbound connection peer localAddr denied =>
      let (handler, calls, d) :=
        d.establishedInbound connection peer localAddr denied
      (⟨calls, handler, none⟩, d)
  | .pendingOutbound connection peer =>
      let (calls, d) := d.pendingOutbound connection peer
      (⟨calls, none, none⟩, d)
  | .establishedOutbound connection peer addr denied =>
      let (handler, calls, d) :=
        d.establishedOutbound connection peer addr denied
      (⟨calls, handler, none⟩, d)
  | .swarmEvent event =>
      let (calls, d) := d.onSwarmEvent event
      (⟨calls, none, none⟩, d)
  | .handlerEvent peer connection =>
      let (calls, d) := d.onConnectionHandlerEvent peer connection
      (⟨calls, none, none⟩, d)
  | .poll inner =>
      let (emitted, calls, d) := d.poll inner
      (⟨calls, none, emitted⟩, d)

end Intranet
