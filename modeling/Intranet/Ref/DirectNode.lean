import Intranet.Lib.Network
import Intranet.Ref.Direct
import Intranet.Ref.DirectMeter
import Intranet.Ref.StorageWire

/-!
# Direct delivery

The direct message handlers of `node.rs` with the acknowledgement of
`direct.rs`, and nodes that run them with each other over the codec of
`sync.rs`. A message is taken only from the peer it names as its sender. The
answer to it says whether a consumer got it.

A node reads the clock when a message comes. Here the reading is a field, and
moves on between messages. The swarm numbers a node's requests and hands the
answer back under the number, which travels with both. A peer that does not
run this code may send any frame to anybody.
-/

namespace Intranet

/-- `MAX_DIRECT_MESSAGE_BYTES`. -/
def maxDirectMessageBytes : ℕ := maxDirectPayloadBytes + 1024

/-- Why a direct message was not taken. -/
inductive DirectRefusal where
  | unsupported
  | rateLimited
  | rejected
deriving DecidableEq

/-- What a recipient says back. -/
inductive DirectAck where
  | received
  | refused (reason : DirectRefusal)
deriving DecidableEq

def DirectRefusal.code : DirectRefusal → UInt8
  | unsupported => 1
  | rateLimited => 2
  | rejected => 3

namespace DirectAck

def wireDomain : String := "intranet.wire.direct-ack.v1"

def put : DirectAck → List UInt8
  | received => Enc.u8 1
  | refused reason => Enc.u8 2 ++ Enc.u8 reason.code

def encode (ack : DirectAck) : List UInt8 := Enc.domain wireDomain ++ ack.put

def getRefusal : Reader DirectError DirectRefusal := do
  match ← Dec.u8 with
  | 1 => return .unsupported
  | 2 => return .rateLimited
  | 3 => return .rejected
  | other => Dec.fail (.unknownVariant "DirectRefusal" other)

def get : Reader DirectError DirectAck := do
  match ← Dec.u8 with
  | 1 => return .received
  | 2 => do
      let reason ← getRefusal
      return .refused reason
  | other => Dec.fail (.unknownVariant "DirectAck" other)

/-- Decodes an acknowledgement. -/
def decode (bytes : List UInt8) : Except DirectError DirectAck :=
  Dec.decode (do
    Dec.domain wireDomain
    let ack ← get
    Dec.finish
    return ack) bytes

end DirectAck

/-- What is reported of direct messages. -/
inductive DirectEvent where
  | directReceived (message : DirectMessage)
  | directDelivered (request : ℕ) (recipient : PerNetworkIdentityId)
      (ack : DirectAck)
  | directRefused (sender : PerNetworkIdentityId) (reason : DirectRefusal)
  | directFailed (request : ℕ) (recipient : PerNetworkIdentityId)
deriving DecidableEq

/-- What the handlers read and write of a node. -/
structure DirectNode where
  directMeter : DirectMeter
  directConsumers : BTreeSet (String ×ₗ String)
  clock : Instant
  nextRequest : ℕ

namespace DirectNode

def new : DirectNode := ⟨.new, ∅, ⟨0⟩, 0⟩

/-- Declares that something here handles messages of this kind. -/
def handleDirect (node : DirectNode) (label kind : String) : DirectNode :=
  { node with directConsumers :=
      node.directConsumers.insert (toLex (label, kind)) }

/-- Bytes between two nodes, with the request they are or answer. -/
inductive Frame where
  | request (id : ℕ) (bytes : List UInt8)
  | response (id : ℕ) (bytes : List UInt8)
deriving DecidableEq

variable {C : Crypto} {validKey : Bytes 32 → Bool}

/-- Why a message is refused: the sender is over its limit, or nothing here
understands it. -/
def refusal (node : DirectNode) (within : Bool) (request : DirectMessage) :
    Option DirectRefusal :=
  if !within then some .rateLimited
  else if !node.directConsumers.contains
      (toLex (request.«namespace», request.kind)) then some .unsupported
  else none

/-- Takes a message from `peer`: what is reported, the node after it, and the
answer. One that names another sender is dropped. -/
def receiveDirect (node : DirectNode) (peer : PerNetworkIdentityId)
    (request : DirectMessage) :
    Option DirectEvent × DirectNode × Option DirectAck :=
  if request.sender ≠ peer then (none, node, none)
  else
    let admitted := node.directMeter.admits request.sender node.clock
    let next := { node with directMeter := admitted.2 }
    match node.refusal admitted.1 request with
    | none => (some (.directReceived request), next, some .received)
    | some reason =>
        (some (.directRefused request.sender reason), next,
          some (.refused reason))

/-- What the caller of a node may ask for, and what a peer that runs other code
may do. -/
inductive Call (ι : Type) where
  | handleDirect (label kind : String)
  | sendDirect (recipient : ι) (label kind : String) (payload : List UInt8)
  | wait (later : Instant)
  | inject (recipient : ι) (frame : Frame)
deriving DecidableEq

variable {ι : Type} (identities : ι → PerNetworkIdentity C validKey)

def call (i : ι) (node : DirectNode) :
    Call ι → DirectNode × Option (ι × Frame)
  | .handleDirect label kind => (node.handleDirect label kind, none)
  | .sendDirect recipient label kind payload =>
      match DirectMessage.create (identities i) label kind payload with
      | .ok message =>
          ({ node with nextRequest := node.nextRequest + 1 },
            some (recipient, .request node.nextRequest message.encode))
      | .error _ => (node, none)
  | .wait later => ({ node with clock := max node.clock later }, none)
  | .inject recipient frame => (node, some (recipient, frame))

def takeFrame (node : DirectNode) (peer : ι) :
    Frame → Option DirectEvent × DirectNode × Option Frame
  | .request id bytes =>
      match DirectMessage.decode C validKey
          (bytes.take maxDirectMessageBytes) with
      | .ok request =>
          let done := node.receiveDirect (identities peer).id request
          (done.1, done.2.1,
            done.2.2.map fun ack => .response id ack.encode)
      | .error _ => (none, node, none)
  | .response id bytes =>
      match DirectAck.decode (bytes.take maxMessageBytes) with
      | .ok ack =>
          (some (.directDelivered id (identities peer).id ack), node, none)
      | .error _ => (some (.directFailed id (identities peer).id), node, none)

/-- The direct message protocol. -/
def protocol : Network.Protocol ι DirectNode Frame (Call ι)
    (Option DirectEvent) where
  act i asked node := node.call identities i asked
  receive _ peer frame node := node.takeFrame identities peer frame

end DirectNode

end Intranet
