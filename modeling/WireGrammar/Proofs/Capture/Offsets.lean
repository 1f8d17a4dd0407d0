import WireGrammar.Capture.Frame

/-!
# Frames read at offsets

The headers of a frame can also be taken off by offsets into the captured bytes, all of which come from lengths that the
frame states. Then every byte and every slice has to be there when it is asked for, or the access fails (`Access`). Each
access stands behind a comparison that covers it, so none fails, and what is read is the payload (`Offsets.payload_eq`).
-/

namespace WireGrammar.Capture

/-- An access to bytes that are not there. -/
inductive AccessError where
  | byte (offset length : Nat)
  | slice (start stop length : Nat)
  deriving DecidableEq

/-- Reading that may come to nothing, or fail in an access. -/
abbrev Access :=
  OptionT (Except AccessError)

namespace Access

variable {α : Type} (bytes : List UInt8)

/-- Reading that does not fail. -/
def ofOption (value? : Option α) : Access α :=
  OptionT.mk (.ok value?)

/-- The byte at an offset. -/
def byte (offset : Nat) : Access Nat :=
  match bytes[offset]? with
  | some b => pure b.toNat
  | none => OptionT.lift (.error (.byte offset bytes.length))

/-- The number in two bytes, the first one the higher. -/
def short (offset : Nat) : Access Nat := do
  return 256 * (← byte bytes offset) + (← byte bytes (offset + 1))

/-- The bytes from `start` up to and without `stop`. -/
def slice (start stop : Nat) : Access (List UInt8) :=
  if start ≤ stop ∧ stop ≤ bytes.length then pure ((bytes.take stop).drop start)
  else OptionT.lift (.error (.slice start stop bytes.length))

@[simp] theorem ofOption_none : (ofOption none : Access α) = failure := rfl

@[simp] theorem ofOption_some (x : α) : ofOption (some x) = pure x := rfl

variable {bytes} {offset start stop : Nat}

theorem byte_of_lt (h : offset < bytes.length) : byte bytes offset = pure (Bytes.byteAt bytes offset) := by
  rw [byte, List.getElem?_eq_getElem h, Bytes.byteAt, List.getD_eq_getElem?_getD, List.getElem?_eq_getElem h]
  rfl

theorem toNat_two (hi lo : UInt8) : Bytes.toNat [hi, lo] = 256 * hi.toNat + lo.toNat := by
  change 256 * (256 * 0 + hi.toNat) + lo.toNat = _
  rw [Nat.mul_zero, Nat.zero_add]

theorem numberAt_two (h : offset + 1 < bytes.length) :
    Endianness.big.numberAt bytes offset 2 = 256 * Bytes.byteAt bytes offset + Bytes.byteAt bytes (offset + 1) := by
  rw [Endianness.numberAt, List.drop_eq_getElem_cons (by omega), List.drop_eq_getElem_cons h, Bytes.byteAt,
    Bytes.byteAt, List.getD_eq_getElem?_getD, List.getD_eq_getElem?_getD, List.getElem?_eq_getElem h,
    List.getElem?_eq_getElem (by omega)]
  exact toNat_two bytes[offset] bytes[offset + 1]

theorem short_of_lt (h : offset + 1 < bytes.length) :
    short bytes offset = pure (Endianness.big.numberAt bytes offset 2) := by
  rw [short, byte_of_lt h, byte_of_lt (by omega), numberAt_two h]
  rfl

theorem slice_of_le (h : start ≤ stop) (inside : stop ≤ bytes.length) :
    slice bytes start stop = pure ((bytes.take stop).drop start) :=
  if_pos ⟨h, inside⟩

/-- What begins inside of the bytes is there up to their end. -/
theorem slice_of_le_length (h : start ≤ bytes.length) : slice bytes start bytes.length = pure (bytes.drop start) := by
  rw [slice_of_le h (Nat.le_refl _), List.take_length]

end Access

namespace Offsets

open Access

/-- The IPv4 packet behind any number of VLAN tags, where a type has been read up to an offset. -/
def afterTags (frame : List UInt8) (offset type : Nat) : Access (List UInt8) :=
  if Ethernet.isTagType type then
    if h : frame.length < offset + 4 then failure
    else do
      let next ← short frame (offset + 2)
      afterTags frame (offset + 4) next
  else if type = Ethernet.ipv4Type then slice frame offset frame.length
  else failure
termination_by frame.length - offset

/-- The IPv4 packet of an Ethernet frame. -/
def ethernet (frame : List UInt8) : Access (List UInt8) :=
  if frame.length < 14 then failure
  else do
    let type ← short frame 12
    afterTags frame 14 type

/-- The IPv4 packet behind a header of sixteen bytes. -/
def linuxCooked (frame : List UInt8) : Access (List UInt8) :=
  if frame.length < 16 then failure
  else do
    let type ← short frame 14
    if type = Ethernet.ipv4Type then slice frame 16 frame.length else failure

/-- The bytes of a packet without what stands behind its stated length. -/
def cut (packet : List UInt8) (total : Nat) : Access (List UInt8) :=
  if total ≤ packet.length then slice packet 0 total else pure packet

/-- The UDP payload in an IPv4 datagram whose header has a known length. -/
def datagramPayload (datagram : List UInt8) (header : Nat) : Access (List UInt8) :=
  if datagram.length < header + Udp.headerLength then failure
  else do
    let protocol ← byte datagram 9
    if protocol ≠ Ipv4.udp then failure
    else do
      let segment ← slice datagram header datagram.length
      let length ← short segment 4
      if length < Udp.headerLength ∨ segment.length < length then failure
      else slice segment Udp.headerLength length

/-- The UDP payload in an IPv4 packet. -/
def packetPayload (packet : List UInt8) : Access (List UInt8) :=
  if packet.length < 20 then failure
  else do
    let first ← byte packet 0
    if first / 16 ≠ 4 then failure
    else do
      let header := 4 * (first % 16)
      let total ← short packet 2
      if header < 20 ∨ packet.length < header ∨ total < header then failure
      else do
        let datagram ← cut packet total
        datagramPayload datagram header

/-- The UDP payload in a frame of the link type with a number. -/
def payload (number : Nat) (frame : List UInt8) : Access (List UInt8) :=
  match number with
  | 1 => do packetPayload (← ethernet frame)
  | 101 => packetPayload frame
  | 113 => do packetPayload (← linuxCooked frame)
  | _ => failure

variable {frame packet : List UInt8}

/-- What stands behind a type, by the length of what is left. -/
theorem afterType?_eq (bytes : List UInt8) :
    Ethernet.afterType? bytes =
      if bytes.length < 2 then none
      else if Ethernet.isTagType (Endianness.big.numberAt bytes 0 2) then Ethernet.afterType? (bytes.drop 4)
      else if Endianness.big.numberAt bytes 0 2 = Ethernet.ipv4Type then some (bytes.drop 2)
      else none := by
  match bytes with
  | [] => rfl
  | [_] => rfl
  | [hi, lo] => rfl
  | [hi, lo, _] => rfl
  | hi :: lo :: a :: b :: next =>
    rw [if_neg (by simp)]
    rfl

/-- Tags are passed over in the frame as they are in what is left of it. -/
theorem afterTags_eq {start : Nat} (h : start + 2 ≤ frame.length) :
    afterTags frame (start + 2) (Endianness.big.numberAt frame start 2) =
      ofOption (Ethernet.afterType? (frame.drop start)) := by
  induction left : frame.length - start using Nat.strongRecOn generalizing start with
  | ind left ih =>
    have long : ¬ (frame.drop start).length < 2 := by rw [List.length_drop]; omega
    have type : Endianness.big.numberAt (frame.drop start) 0 2 = Endianness.big.numberAt frame start 2 := by
      rw [Endianness.numberAt, List.drop_zero, Endianness.numberAt]
    rw [afterTags, afterType?_eq, if_neg long, type]
    split
    next tag =>
      rw [List.drop_drop]
      split
      next short => rw [afterType?_eq, if_pos (by rw [List.length_drop]; omega), ofOption_none]
      next enough =>
        rw [short_of_lt (by omega), pure_bind]
        exact ih _ (by omega) (by omega) rfl
    next =>
      split
      next => rw [slice_of_le_length h, List.drop_drop, ofOption_some]
      next => rfl

theorem ethernet_eq (frame : List UInt8) : ethernet frame = ofOption (Ethernet.packet? frame) := by
  rw [ethernet, Ethernet.packet?]
  split
  next short => rw [afterType?_eq, if_pos (by rw [List.length_drop]; omega), ofOption_none]
  next => rw [short_of_lt (by omega), pure_bind, afterTags_eq (by omega)]

theorem linuxCooked_eq (frame : List UInt8) : linuxCooked frame = ofOption (LinuxCooked.packet? frame) := by
  rw [linuxCooked, LinuxCooked.packet?]
  split
  next short => rw [if_neg fun h => by omega, ofOption_none]
  next long =>
    rw [short_of_lt (by omega), pure_bind]
    split
    next ipv4 => rw [slice_of_le_length (by omega), if_pos ⟨by omega, ipv4⟩, ofOption_some]
    next other => rw [if_neg fun h => other h.2, ofOption_none]

theorem byteAt_take {bytes : List UInt8} {n i : Nat} (h : i < n) :
    Bytes.byteAt (bytes.take n) i = Bytes.byteAt bytes i := by
  rw [Bytes.byteAt, Bytes.byteAt, List.getD_eq_getElem?_getD, List.getD_eq_getElem?_getD, List.getElem?_take_of_lt h]

theorem udpPayload?_of_short {segment : List UInt8} (h : segment.length < Udp.headerLength) :
    Udp.payload? segment = none :=
  if_neg fun fits => Nat.not_le_of_lt h (Nat.le_trans fits.1 fits.2)

/-- A datagram is cut at its stated length before its protocol is looked at. -/
theorem datagramPayload_eq {total header : Nat} (h : 20 ≤ header) :
    datagramPayload (packet.take total) header =
      ofOption (if Ipv4.protocol packet = Ipv4.udp then Udp.payload? ((packet.take total).drop header) else none) := by
  have length : ((packet.take total).drop header).length = (packet.take total).length - header := List.length_drop
  have udp : Udp.headerLength = 8 := rfl
  have inside := List.length_take_le total packet
  rw [datagramPayload]
  split
  next short =>
    rw [udpPayload?_of_short (by omega)]
    split <;> rfl
  next long =>
    have protocol : byte (packet.take total) 9 = pure (Ipv4.protocol packet) := by
      rw [byte_of_lt (by omega), byteAt_take (by omega)]
      rfl
    rw [protocol, pure_bind]
    by_cases carries : Ipv4.protocol packet = Ipv4.udp
    · rw [if_neg (not_not_intro carries), if_pos carries, slice_of_le_length (by omega), pure_bind,
        short_of_lt (by omega), pure_bind, Udp.payload?, ← Udp.statedLength]
      split
      next outside => rw [if_neg fun fits => by omega, ofOption_none]
      next fits => rw [slice_of_le (by omega) (by omega), if_pos (by omega), ofOption_some]
    · rw [if_pos carries, if_neg carries, ofOption_none]

theorem cut_eq (packet : List UInt8) (total : Nat) : cut packet total = pure (packet.take total) := by
  rw [cut]
  split
  next complete => rw [slice_of_le (Nat.zero_le _) complete, List.drop_zero]
  next captured => rw [List.take_of_length_le (by omega)]

theorem segment?_of_broken (h : ¬ Ipv4.IsWellFormed packet) : Ipv4.segment? packet = none :=
  if_neg fun carries => h carries.1

theorem packetPayload_eq (packet : List UInt8) :
    packetPayload packet = ofOption ((Ipv4.segment? packet).bind Udp.payload?) := by
  rw [packetPayload]
  split
  next short =>
    rw [segment?_of_broken fun ⟨_, least, captured, _⟩ => by omega]
    rfl
  next long =>
    rw [byte_of_lt (by omega), pure_bind]
    split
    next other =>
      rw [segment?_of_broken fun wellFormed => other wellFormed.1]
      rfl
    next version =>
      rw [short_of_lt (by omega), pure_bind]
      change (if Ipv4.headerLength packet < 20 ∨ packet.length < Ipv4.headerLength packet ∨
        Ipv4.totalLength packet < Ipv4.headerLength packet then failure else _) = _
      split
      next outside =>
        rw [segment?_of_broken fun ⟨_, least, captured, stated⟩ => by omega]
        rfl
      next inside =>
        have wellFormed : Ipv4.IsWellFormed packet := ⟨Decidable.not_not.mp version, by omega, by omega, by omega⟩
        change (cut packet (Ipv4.totalLength packet) >>= (datagramPayload · (Ipv4.headerLength packet))) = _
        rw [cut_eq, pure_bind, datagramPayload_eq (by omega), Ipv4.segment?]
        by_cases udp : Ipv4.protocol packet = Ipv4.udp
        · rw [if_pos udp, if_pos ⟨wellFormed, udp⟩, Option.bind_some]
        · rw [if_neg udp, if_neg fun h => udp h.2, Option.bind_none]

/-- No access fails, and what is read is the payload. -/
theorem payload_eq (number : Nat) (frame : List UInt8) :
    payload number frame = ofOption ((LinkType.ofNumber number).udpPayload? frame) := by
  have bind (o : Option (List UInt8)) : (do packetPayload (← ofOption o)) =
      ofOption (o.bind fun packet => (Ipv4.segment? packet).bind Udp.payload?) := by
    cases o with
    | none => rfl
    | some packet => exact packetPayload_eq packet
  unfold payload
  split
  · rw [ethernet_eq, bind]
    rfl
  · exact bind (some frame)
  · rw [linuxCooked_eq, bind]
    rfl
  next ethernet raw cooked =>
    have other : LinkType.ofNumber number = .other number := by
      unfold LinkType.ofNumber
      split
      · exact absurd rfl ethernet
      · exact absurd rfl raw
      · exact absurd rfl cooked
      · rfl
    rw [other]
    rfl

end Offsets

end WireGrammar.Capture
