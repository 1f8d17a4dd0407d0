import WireGrammar.Bytes

/-!
# Frames

The UDP payload inside a captured frame: a link header, an IPv4 header and a UDP header are taken off. The lengths
that the headers state bound the payload, so that the padding of short frames is no part of it.

* `LinkType.packet?`: what stands behind the link header, if that announces IPv4.
* `Ipv4.segment?`: what stands behind the header of an IPv4 packet that carries UDP.
* `Udp.payload?`: what stands behind a UDP header.
* `LinkType.udpPayload?`: the three one after the other.
-/

namespace WireGrammar.Capture

/-- What the frames of a capture begin with. -/
inductive LinkType where
  | ethernet
  /-- No link header. -/
  | rawIp
  | linuxCooked
  /-- A kind of frame that is not looked into. -/
  | other (number : Nat)
  deriving DecidableEq

namespace Ethernet

/-- The type that announces an IPv4 packet. -/
def ipv4Type : Nat := 0x0800

/-- Whether a type announces a VLAN tag. -/
def isTagType (type : Nat) : Bool :=
  type == 0x8100 || type == 0x88a8

/-- The IPv4 packet behind a type and any number of VLAN tags; a tag ends with the type of what follows it. -/
def afterType? : List UInt8 → Option (List UInt8)
  | hi :: lo :: rest =>
    let type := Bytes.toNat [hi, lo]
    if isTagType type then
      match rest with
      | _ :: _ :: next => afterType? next
      | _ => none
    else if type = ipv4Type then some rest
    else none
  | _ => none

/-- The IPv4 packet behind two addresses of six bytes, a type, and any number of VLAN tags. -/
def packet? (frame : List UInt8) : Option (List UInt8) :=
  afterType? (frame.drop 12)

end Ethernet

/-- The IPv4 packet behind a header of sixteen bytes, the last two of which are its type. -/
def LinuxCooked.packet? (frame : List UInt8) : Option (List UInt8) :=
  if 16 ≤ frame.length ∧ Endianness.big.numberAt frame 14 2 = Ethernet.ipv4Type then some (frame.drop 16) else none

namespace Ipv4

/-- The number of UDP among the protocols. -/
def udp : Nat := 17

def version (packet : List UInt8) : Nat :=
  Bytes.byteAt packet 0 / 16

/-- The length of the header in bytes; it is written in words of four bytes. -/
def headerLength (packet : List UInt8) : Nat :=
  4 * (Bytes.byteAt packet 0 % 16)

/-- The length of the whole packet that the header states. -/
def totalLength (packet : List UInt8) : Nat :=
  Endianness.big.numberAt packet 2 2

def protocol (packet : List UInt8) : Nat :=
  Bytes.byteAt packet 9

/-- A header of version 4 that is all there and no longer than the packet that it describes. -/
def IsWellFormed (packet : List UInt8) : Prop :=
  version packet = 4 ∧ 20 ≤ headerLength packet ∧ headerLength packet ≤ packet.length ∧
    headerLength packet ≤ totalLength packet

instance (packet : List UInt8) : Decidable (IsWellFormed packet) :=
  inferInstanceAs (Decidable (_ ∧ _))

/-- The UDP segment behind the header, cut at the stated length; a packet of which less was captured is not cut. -/
def segment? (packet : List UInt8) : Option (List UInt8) :=
  if IsWellFormed packet ∧ protocol packet = udp then
    some ((packet.take (totalLength packet)).drop (headerLength packet))
  else none

end Ipv4

namespace Udp

def headerLength : Nat := 8

/-- The length of the segment that its header states, header included. -/
def statedLength (segment : List UInt8) : Nat :=
  Endianness.big.numberAt segment 4 2

/-- The bytes behind the header, as many as it states; nothing if they are not all there. -/
def payload? (segment : List UInt8) : Option (List UInt8) :=
  let n := statedLength segment
  if headerLength ≤ n ∧ n ≤ segment.length then some ((segment.take n).drop headerLength) else none

end Udp

namespace LinkType

/-- The link type with a number. -/
def ofNumber : Nat → LinkType
  | 1 => ethernet
  | 101 => rawIp
  | 113 => linuxCooked
  | n => other n

/-- The IPv4 packet in a frame. -/
def packet? : LinkType → List UInt8 → Option (List UInt8)
  | ethernet, frame => Ethernet.packet? frame
  | rawIp, frame => some frame
  | linuxCooked, frame => LinuxCooked.packet? frame
  | other _, _ => none

/-- The UDP payload in a frame. -/
def udpPayload? (link : LinkType) (frame : List UInt8) : Option (List UInt8) := do
  let packet ← link.packet? frame
  let segment ← Ipv4.segment? packet
  Udp.payload? segment

end LinkType

end WireGrammar.Capture
