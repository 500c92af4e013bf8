import Intranet.Ref.DirectOnly

/-!
# The tier of each peer

`classify` of `dial.rs`, and of `node.rs` the state and the arms of
`next_swarm_event` that keep `tiers` and `relayed_since`, with
`close_stale_circuit`. One tier and one deadline stand for all connections to a
peer. Each arm returns what it asks of the swarm and the event it reports.

An instant is a natural number, and `duration_since` is cut off at zero.
-/

namespace Intranet

inductive AddressFamily where
  | ipv6
  | ipv4
deriving DecidableEq

/-- How a connection was established. -/
inductive ConnectionTier where
  | direct (family : AddressFamily)
  | holePunched
  | relayed
deriving DecidableEq

def ConnectionTier.relayInDataPath (tier : ConnectionTier) : Bool :=
  tier = .relayed

/-- The family one part of an address names. A part starts with the code of its
protocol: 4 and 54 are `ip4` and `dns4`, 41 and 55 are `ip6` and `dns6`. -/
def AddressPart.family : AddressPart → Option AddressFamily
  | .p2pCircuit => none
  | .other [] => none
  | .other (code :: _) =>
      if code = 41 ∨ code = 55 then some .ipv6
      else if code = 4 ∨ code = 54 then some .ipv4
      else none

/-- `family_of`. -/
def familyOf (address : Multiaddr) : Option AddressFamily :=
  address.findSome? AddressPart.family

def classify (address : Multiaddr) : ConnectionTier :=
  if throughACircuit address then .relayed
  else .direct ((familyOf address).getD .ipv4)

/-- Which end of a connection this is, and the addresses it has there. -/
inductive Endpoint where
  | dialer (address : Multiaddr)
  | listener (localAddr sendBackAddr : Multiaddr)
deriving DecidableEq

namespace Endpoint

def isRelayed : Endpoint → Bool
  | .dialer address => throughACircuit address
  | .listener localAddr _ => throughACircuit localAddr

/-- `get_remote_address`. -/
def remoteAddress : Endpoint → Multiaddr
  | .dialer address => address
  | .listener _ sendBackAddr => sendBackAddr

/-- The tier of a connection on its own. -/
def tier (endpoint : Endpoint) : ConnectionTier :=
  if endpoint.isRelayed then .relayed else classify endpoint.remoteAddress

end Endpoint

/-- What an arm asks of the swarm. `sync` stands for the three requests
`sync_with`, `sync_ledger_with` and `sync_pointers_with`. -/
inductive TierAsk where
  | closeConnection (connection : ConnectionId)
  | disconnectPeer (peer : PeerId)
  | sync (peer : PeerId)
deriving DecidableEq

inductive NodeEvent where
  | connected (peer : PeerId) (tier : ConnectionTier) (address : Multiaddr)
  | disconnected (peer : PeerId)
  | holePunchSucceeded (peer : PeerId)
  | holePunchFailed (peer : PeerId)
deriving DecidableEq

/-- The fields of a member node that say how its peers are reached. -/
structure NodeTiers where
  tiers : BTreeMap PeerId ConnectionTier
  relayedSince : BTreeMap PeerId ℕ
  circuitUpgradeDeadline : ℕ
deriving DecidableEq

namespace NodeTiers

/-- `CIRCUIT_UPGRADE_DEADLINE`: 25 seconds, in milliseconds. -/
def defaultDeadline : ℕ := 25000

def new (circuitUpgradeDeadline : ℕ) : NodeTiers :=
  ⟨∅, ∅, circuitUpgradeDeadline⟩

/-- The tier a peer is recorded with when a connection to it is added to what
was known. -/
def upgraded (known : Option ConnectionTier) (tier : ConnectionTier) :
    ConnectionTier :=
  match known with
  | some .holePunched => if !tier.relayInDataPath then .holePunched else tier
  | some .relayed => if !tier.relayInDataPath then .holePunched else tier
  | _ => tier

/-- `SwarmEvent::ConnectionEstablished`. -/
def connectionEstablished (m : NodeTiers) (peer : PeerId)
    (connection : ConnectionId) (endpoint : Endpoint) (now : ℕ) :
    List TierAsk × Option NodeEvent × NodeTiers :=
  let tier := endpoint.tier
  if tier.relayInDataPath &&
      m.tiers[peer]?.any fun known => !known.relayInDataPath then
    ([.closeConnection connection], none, m)
  else
    let tier := upgraded m.tiers[peer]? tier
    let m := { m with tiers := m.tiers.insert peer tier }
    let m :=
      if tier.relayInDataPath then
        { m with relayedSince :=
            if m.relayedSince.contains peer then m.relayedSince
            else m.relayedSince.insert peer now }
      else { m with relayedSince := m.relayedSince.erase peer }
    (if !tier.relayInDataPath then [.sync peer] else [],
      some (.connected peer tier endpoint.remoteAddress), m)

/-- `SwarmEvent::ConnectionClosed`, with the connections to the peer that are
still open. -/
def connectionClosed (m : NodeTiers) (peer : PeerId) (numEstablished : ℕ) :
    Option NodeEvent × NodeTiers :=
  if 0 < numEstablished then (none, m)
  else (some (.disconnected peer), { m with
    tiers := m.tiers.erase peer
    relayedSince := m.relayedSince.erase peer })

/-- The `Dcutr` event, by whether the upgrade succeeded. -/
def dcutr (m : NodeTiers) (peer : PeerId) (ok : Bool) :
    List TierAsk × NodeEvent × NodeTiers :=
  if ok then
    ([.sync peer], .holePunchSucceeded peer, { m with
      tiers := m.tiers.insert peer .holePunched
      relayedSince := m.relayedSince.erase peer })
  else
    ([.disconnectPeer peer], .holePunchFailed peer, { m with
      tiers := m.tiers.erase peer
      relayedSince := m.relayedSince.erase peer })

/-- One round of the loop of `close_stale_circuit`. -/
def closeStale (m : NodeTiers) (peer : PeerId) : List TierAsk × NodeTiers :=
  let m := { m with relayedSince := m.relayedSince.erase peer }
  if m.tiers[peer]? ≠ some .relayed then ([], m)
  else ([.disconnectPeer peer], { m with tiers := m.tiers.erase peer })

/-- The peers whose deadline has passed. -/
def expired (m : NodeTiers) (now : ℕ) : List PeerId :=
  (m.relayedSince.toList.filter fun entry =>
    m.circuitUpgradeDeadline ≤ now - entry.2).map Prod.fst

/-- `close_stale_circuit`. It reports the first peer it closed. -/
def closeStaleCircuit (m : NodeTiers) (now : ℕ) :
    Option PeerId × List TierAsk × NodeTiers :=
  (m.expired now).foldl (fun (closed, asks, m) peer =>
    let (more, m) := m.closeStale peer
    (if more.isEmpty then closed else closed.or (some peer), asks ++ more, m))
    (none, [], m)

end NodeTiers

end Intranet
