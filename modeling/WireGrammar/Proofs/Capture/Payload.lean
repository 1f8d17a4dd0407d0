import WireGrammar.Proofs.Capture.Offsets

/-!
# UDP payloads of frames

Which bytes of a frame are its payload, said of the whole frame: it is a complete link header that announces IPv4
(`IsLinkHeader`) in front of a packet, and the payload is what the lengths in the headers of that packet mark out
(`CarriesUdp`). `payload_of_frame`: exactly these bytes are found, and no byte outside of the frame is looked at for it.
-/

namespace WireGrammar.Capture

/-- A VLAN tag: one of two types, and two bytes of control information. -/
def IsTag (tag : List UInt8) : Prop :=
  ∃ high low, tag = [0x81, 0x00, high, low] ∨ tag = [0x88, 0xa8, high, low]

/-- The bytes in front of an IPv4 packet. -/
inductive IsLinkHeader : LinkType → List UInt8 → Prop
  /-- Two addresses of six bytes, any number of tags, and the type of IPv4. -/
  | ethernet {addresses : List UInt8} {tags : List (List UInt8)} : addresses.length = 12 → (∀ tag ∈ tags, IsTag tag) →
      IsLinkHeader .ethernet (addresses ++ tags.flatten ++ [0x08, 0x00])
  | rawIp : IsLinkHeader .rawIp []
  /-- Fourteen bytes about the sender, and the type of IPv4. -/
  | linuxCooked {sender : List UInt8} : sender.length = 14 → IsLinkHeader .linuxCooked (sender ++ [0x08, 0x00])

/-- The length of the UDP segment that its header states, header included. -/
def udpLength (packet : List UInt8) : Nat :=
  Endianness.big.numberAt packet (Ipv4.headerLength packet + 4) 2

/-- The payload of an IPv4 packet that carries UDP. The header is there and the datagram is as long as it states, or as
what was captured of it; the segment is within the datagram. -/
structure CarriesUdp (packet payload : List UInt8) : Prop where
  version : Ipv4.version packet = 4
  header_least : 20 ≤ Ipv4.headerLength packet
  header_captured : Ipv4.headerLength packet ≤ packet.length
  header_stated : Ipv4.headerLength packet ≤ Ipv4.totalLength packet
  protocol : Ipv4.protocol packet = 17
  udp_least : 8 ≤ udpLength packet
  udp_inside : Ipv4.headerLength packet + udpLength packet ≤ min (Ipv4.totalLength packet) packet.length
  /-- The payload is one part of the packet, right behind the UDP header. -/
  place : ∃ front back, packet = front ++ payload ++ back ∧ front.length = Ipv4.headerLength packet + 8 ∧
    payload.length = udpLength packet - 8

/-- The UDP payload of a frame. -/
def IsUdpPayload (link : LinkType) (frame payload : List UInt8) : Prop :=
  ∃ header packet, IsLinkHeader link header ∧ frame = header ++ packet ∧ CarriesUdp packet payload

variable {frame packet payload : List UInt8}

/-! ## Link headers -/

theorem toNat_two_eq_iff (hi lo high low : UInt8) :
    Bytes.toNat [hi, lo] = Bytes.toNat [high, low] ↔ hi = high ∧ lo = low := by
  have := lo.toNat_lt
  have := low.toNat_lt
  rw [Access.toNat_two, Access.toNat_two, ← UInt8.toNat_inj, ← UInt8.toNat_inj]
  omega

theorem isTagType_iff {hi lo : UInt8} :
    Ethernet.isTagType (Bytes.toNat [hi, lo]) = true ↔ hi = 0x81 ∧ lo = 0x00 ∨ hi = 0x88 ∧ lo = 0xa8 := by
  rw [Ethernet.isTagType, Bool.or_eq_true, beq_iff_eq, beq_iff_eq]
  exact or_congr (toNat_two_eq_iff hi lo 0x81 0x00) (toNat_two_eq_iff hi lo 0x88 0xa8)

theorem eq_ipv4Type_iff {hi lo : UInt8} : Bytes.toNat [hi, lo] = Ethernet.ipv4Type ↔ hi = 0x08 ∧ lo = 0x00 :=
  toNat_two_eq_iff hi lo 0x08 0x00

/-- Behind tags and the type of IPv4 stands the packet. -/
theorem afterType?_eq_some_iff {bytes : List UInt8} :
    Ethernet.afterType? bytes = some packet ↔
      ∃ tags : List (List UInt8), (∀ tag ∈ tags, IsTag tag) ∧ bytes = tags.flatten ++ [0x08, 0x00] ++ packet := by
  constructor
  · intro h
    fun_induction Ethernet.afterType? bytes
    case case1 hi lo type tag first second next ih =>
      obtain ⟨tags, valid, rfl⟩ := ih h
      refine ⟨[hi, lo, first, second] :: tags, List.forall_mem_cons.mpr ⟨⟨first, second, ?_⟩, valid⟩, rfl⟩
      rcases isTagType_iff.mp tag with ⟨rfl, rfl⟩ | ⟨rfl, rfl⟩
      · exact Or.inl rfl
      · exact Or.inr rfl
    case case3 hi lo rest type tag ipv4 =>
      obtain ⟨rfl, rfl⟩ := eq_ipv4Type_iff.mp ipv4
      cases h
      exact ⟨[], by simp, rfl⟩
    all_goals cases h
  · rintro ⟨tags, valid, rfl⟩
    induction tags with
    | nil =>
      change Ethernet.afterType? (0x08 :: 0x00 :: packet) = some packet
      have type : Endianness.big.numberAt (0x08 :: 0x00 :: packet) 0 2 = Ethernet.ipv4Type := rfl
      rw [Offsets.afterType?_eq, if_neg (by simp), type]
      rfl
    | cons tag tags ih =>
      obtain ⟨⟨high, low, here⟩, valid⟩ := List.forall_mem_cons.mp valid
      rw [← ih valid]
      rcases here with rfl | rfl <;> rfl

/-- Bytes from an offset on are there if the bytes begin with as many others. -/
theorem eq_append_of_drop {bytes rest : List UInt8} {n : Nat} (h : bytes.drop n = rest) (some : rest ≠ []) :
    ∃ front, front.length = n ∧ bytes = front ++ rest := by
  refine ⟨bytes.take n, ?_, by rw [← h, List.take_append_drop]⟩
  have left : 0 < (bytes.drop n).length := List.length_pos_iff.mpr (h ▸ some)
  rw [List.length_drop] at left
  rw [List.length_take]
  omega

theorem linuxCooked_eq_some_iff :
    LinuxCooked.packet? frame = some packet ↔
      ∃ sender : List UInt8, sender.length = 14 ∧ frame = sender ++ [0x08, 0x00] ++ packet := by
  rw [LinuxCooked.packet?]
  constructor
  · intro h
    split at h
    next announced =>
      cases h
      obtain ⟨hi, lo, behind⟩ : ∃ hi lo, frame.drop 14 = hi :: lo :: frame.drop 16 :=
        ⟨_, _, by rw [List.drop_eq_getElem_cons (by omega), List.drop_eq_getElem_cons (by omega)]⟩
      have type := announced.2
      rw [Endianness.numberAt, behind] at type
      obtain ⟨rfl, rfl⟩ := eq_ipv4Type_iff.mp type
      obtain ⟨sender, fourteen, whole⟩ := eq_append_of_drop behind (by simp)
      exact ⟨sender, fourteen, by rw [List.append_assoc]; exact whole⟩
    next => cases h
  · rintro ⟨sender, fourteen, rfl⟩
    have type : Endianness.big.numberAt (sender ++ [0x08, 0x00] ++ packet) 14 2 = Ethernet.ipv4Type := by
      rw [Endianness.numberAt, List.append_assoc, ← fourteen, List.drop_left]
      rfl
    have sixteen : (sender ++ [0x08, 0x00]).length = 16 := by rw [List.length_append, fourteen]; rfl
    have long : 16 ≤ (sender ++ [0x08, 0x00] ++ packet).length := by
      rw [List.length_append, sixteen]
      exact Nat.le_add_right 16 packet.length
    rw [if_pos ⟨long, type⟩, List.drop_left' sixteen]

theorem packet?_eq_some_iff {link : LinkType} :
    link.packet? frame = some packet ↔ ∃ header, IsLinkHeader link header ∧ frame = header ++ packet := by
  cases link with
  | ethernet =>
    change Ethernet.afterType? (frame.drop 12) = some packet ↔ _
    rw [afterType?_eq_some_iff]
    constructor
    · rintro ⟨tags, valid, behind⟩
      obtain ⟨addresses, twelve, rfl⟩ := eq_append_of_drop behind (by simp)
      exact ⟨_, .ethernet twelve valid, by simp⟩
    · rintro ⟨_, @⟨addresses, tags, twelve, valid⟩, rfl⟩
      exact ⟨tags, valid, by simp [← twelve]⟩
  | rawIp =>
    constructor
    · rintro ⟨⟩
      exact ⟨[], .rawIp, rfl⟩
    · rintro ⟨_, ⟨⟩, rfl⟩
      rfl
  | linuxCooked =>
    change LinuxCooked.packet? frame = some packet ↔ _
    rw [linuxCooked_eq_some_iff]
    constructor
    · rintro ⟨sender, fourteen, whole⟩
      exact ⟨_, .linuxCooked fourteen, whole⟩
    · rintro ⟨_, isHeader, whole⟩
      cases isHeader with
      | linuxCooked fourteen => exact ⟨_, fourteen, whole⟩
  | other n =>
    constructor
    · rintro ⟨⟩
    · rintro ⟨_, ⟨⟩, -⟩

/-! ## Packets -/

/-- A part of bytes is marked out by what stands in front of it and by its length. -/
theorem drop_take_eq_iff {bytes middle : List UInt8} {start stop : Nat} (h : start ≤ stop)
    (inside : stop ≤ bytes.length) :
    (bytes.take stop).drop start = middle ↔
      ∃ front back, bytes = front ++ middle ++ back ∧ front.length = start ∧ middle.length = stop - start := by
  constructor
  · rintro rfl
    refine ⟨bytes.take start, bytes.drop stop, ?_, List.length_take_of_le (Nat.le_trans h inside), ?_⟩
    · have front : bytes.take start = (bytes.take stop).take start := by rw [List.take_take, Nat.min_eq_left h]
      rw [front, List.take_append_drop, List.take_append_drop]
    · rw [List.length_drop, List.length_take_of_le inside]
  · rintro ⟨front, back, rfl, rfl, length⟩
    have stop_eq : stop = (front ++ middle).length := by rw [List.length_append]; omega
    rw [stop_eq, List.take_left, List.drop_left]

/-- The stated length of the segment stands in the packet, if the cut does not take it away. -/
theorem statedLength_segment {total : Nat} (h : Ipv4.headerLength packet + 6 ≤ total) :
    Udp.statedLength ((packet.take total).drop (Ipv4.headerLength packet)) = udpLength packet := by
  rw [Udp.statedLength, Endianness.numberAt, udpLength, Endianness.numberAt, List.drop_drop, List.drop_take,
    List.take_take, Nat.min_eq_left (by omega)]

/-- A part of the segment is a part of the packet. -/
theorem drop_take_segment {total header length : Nat} (h : header + length ≤ total) :
    (((packet.take total).drop header).take length).drop Udp.headerLength =
      (packet.take (header + length)).drop (header + 8) := by
  rw [List.take_drop, List.take_take, Nat.min_eq_left h, List.drop_drop]
  rfl

theorem payload?_eq_some_iff :
    (Ipv4.segment? packet).bind Udp.payload? = some payload ↔ CarriesUdp packet payload := by
  have segment : ((packet.take (Ipv4.totalLength packet)).drop (Ipv4.headerLength packet)).length =
      min (Ipv4.totalLength packet) packet.length - Ipv4.headerLength packet := by
    rw [List.length_drop, List.length_take]
  have udp : Udp.headerLength = 8 := rfl
  constructor
  · intro h
    obtain ⟨_, found, h⟩ := Option.bind_eq_some_iff.mp h
    rw [Ipv4.segment?] at found
    split at found
    next wellFormed =>
      cases found
      obtain ⟨⟨version, least, captured, stated⟩, protocol⟩ := wellFormed
      rw [Udp.payload?] at h
      split at h
      next fits =>
        rw [statedLength_segment (by omega)] at fits h
        rw [drop_take_segment (by omega), Option.some.injEq] at h
        obtain ⟨front, back, whole, start, length⟩ := (drop_take_eq_iff (by omega) (by omega)).mp h
        have place : payload.length = udpLength packet - 8 := by omega
        exact ⟨version, least, captured, stated, protocol, by omega, by omega, front, back, whole, start, place⟩
      next => cases h
    next => cases found
  · rintro ⟨version, least, captured, stated, protocol, eight, inside, front, back, whole, start, length⟩
    have wellFormed : Ipv4.IsWellFormed packet := ⟨version, least, captured, stated⟩
    rw [Ipv4.segment?, if_pos ⟨wellFormed, protocol⟩, Option.bind_some, Udp.payload?,
      statedLength_segment (by omega), if_pos (by omega), drop_take_segment (by omega), Option.some.injEq]
    exact (drop_take_eq_iff (by omega) (by omega)).mpr ⟨front, back, whole, start, by omega⟩

/--
Frames of Ethernet, the cooked kind and the raw kind have a UDP payload if their link header is complete and announces
IPv4, and if the headers of the packet behind it state lengths that fit into each other and into what was captured; it
is the part of the frame that these lengths mark out. Read at offsets that come from the lengths, no access fails.
-/
theorem payload_of_frame (number : Nat) (frame : List UInt8) :
    (Offsets.payload number frame).run = .ok ((LinkType.ofNumber number).udpPayload? frame) ∧
      ∀ payload, (LinkType.ofNumber number).udpPayload? frame = some payload ↔
        IsUdpPayload (LinkType.ofNumber number) frame payload := by
  refine ⟨congrArg OptionT.run (Offsets.payload_eq number frame), fun payload => ?_⟩
  change ((LinkType.ofNumber number).packet? frame).bind (fun packet => (Ipv4.segment? packet).bind Udp.payload?) =
    some payload ↔ _
  rw [Option.bind_eq_some_iff]
  constructor
  · rintro ⟨packet, found, carried⟩
    obtain ⟨header, isHeader, whole⟩ := packet?_eq_some_iff.mp found
    exact ⟨header, packet, isHeader, whole, payload?_eq_some_iff.mp carried⟩
  · rintro ⟨header, packet, isHeader, whole, carries⟩
    exact ⟨packet, packet?_eq_some_iff.mpr ⟨header, isHeader, whole⟩, payload?_eq_some_iff.mpr carries⟩

end WireGrammar.Capture
