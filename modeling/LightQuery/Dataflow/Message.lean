import LightQuery.Memory

/-!
# LightQuery.Dataflow.Message

The messages of a dataflow: payloads of nodes, and tagged messages with the
address of the actor they are for.

An address is read from the message's address field: `addrs[0]` is its length
and the bytes behind it are the address.  The field has `max_addr_len` bytes;
a longer address is read on in whatever memory follows it, so that `addrs` is
a function and not a vector of 19 bytes.
-/

namespace LightQuery

/-- `light_node`. -/
structure LightNode where
  vertex : UInt64
  time : UInt64
deriving DecidableEq, Repr

/-- `message_type`. -/
inductive MessageType where
  | user | flowControl | createChild | cancelScope | configuration | acknowledge
deriving DecidableEq, Repr

/-- The enumeration's values. -/
def MessageType.toNat : MessageType → Nat
  | .user => 0
  | .flowControl => 1
  | .createChild => 2
  | .cancelScope => 3
  | .configuration => 4
  | .acknowledge => 5

/-- `message_data_type`. -/
inductive MessageDataType where
  | userData | eos | nothing
deriving DecidableEq, Repr

/-- `message_payload`. -/
structure MessagePayload where
  type : MessageDataType
  data : List LightNode
deriving DecidableEq, Repr

/-- `max_payload_capacity`. -/
def maxPayloadCapacity : Nat := 100

/-- `max_addr_len`. -/
def maxAddrLen : Nat := 19

/-- `tag_message`; `addrs` holds the bytes from the address field on. -/
structure TagMessage where
  type : MessageType
  addrs : Nat → UInt8
  payload : Option MessagePayload

namespace TagMessage

/-- `msg->addrs[0]`. -/
def addrLen (msg : TagMessage) : Nat := (msg.addrs 0).toNat

/-- The `addrs[0]` bytes from `msg->addrs + 1` on. -/
def address (msg : TagMessage) : List UInt8 :=
  (List.range msg.addrLen).map fun i => msg.addrs (i + 1)

@[simp] theorem length_address (msg : TagMessage) : msg.address.length = msg.addrLen := by
  simp [address]

/-- The field after `flush_ds_addr_to_msg` on a zeroed one: the length byte and
the address. -/
def writeAddrs (addr : List UInt8) (i : Nat) : UInt8 :=
  (UInt8.ofNat addr.length :: addr).getD i 0

/-- An address that fits is read back. -/
theorem address_writeAddrs {type : MessageType} {addr : List UInt8} {payload : Option MessagePayload}
    (h : addr.length < 256) : address ⟨type, writeAddrs addr, payload⟩ = addr := by
  have hlen : (UInt8.ofNat addr.length).toNat = addr.length := by
    rw [UInt8.toNat_ofNat']
    omega
  refine List.ext_getElem (by simp [addrLen, writeAddrs, hlen]) ?_
  intro i h₁ h₂
  simp [address, writeAddrs, h₂]

end TagMessage

/-- A line that the dataflow or an operator writes to `std::cout`. -/
inductive Line where
  | node (n : LightNode)
  | undefinedData
  | undefinedSystem
  | undefinedType
deriving DecidableEq, Repr

/-- The text of a line. -/
def Line.text : Line → String
  | .node n => "Vertex: " ++ toString n.vertex ++ " || Time: " ++ toString n.time
  | .undefinedData => "Received undefined message data type!"
  | .undefinedSystem => "Receives an undefined system message"
  | .undefinedType => "receives undefined type msg!"

end LightQuery
