import WireGrammar.Capture.Trace

/-!
# The block capture format

A sequence of blocks. Each begins with its kind and its size and ends with its size again. A section block tells the
order of the bytes in the blocks behind it, an interface block the link type of an interface; interfaces are counted
through the whole file. Blocks of other kinds than sections, interfaces and packets are skipped, but those of a known
kind have to be well formed.

* `Pcapng.skipNames`: where the names of a name resolution block end.
* `Pcapng.readBlock`: the block at the front of the bytes.
* `Pcapng.read`: the whole file.
-/

namespace WireGrammar.Capture.Pcapng

/-- What the blocks say that matter. -/
inductive Block where
  | section (order : Endianness)
  | interface (link : LinkType)
  /-- A frame with the index of its interface. -/
  | packet (interface : Nat) (frame : List UInt8)
  | other
  deriving DecidableEq

/-- Why there is no block at the front of the bytes. -/
inductive BlockFault where
  /-- More bytes are needed, at least so many. -/
  | unfinished (missing : Nat)
  | notRecognized
  /-- The lengths contradict each other; the bytes from there on. -/
  | malformed (rest : List UInt8)
  deriving DecidableEq

inductive BlockKind where
  | section | interface | simplePacket | nameResolution | statistics | enhancedPacket | secrets | custom | process
  | other
  deriving DecidableEq

namespace BlockKind

def ofNumber : Nat → BlockKind
  | 0x0a0d0d0a => .section
  | 1 => .interface
  | 3 => .simplePacket
  | 4 => .nameResolution
  | 5 => .statistics
  | 6 => .enhancedPacket
  | 10 => .secrets
  | 0xbad | 0x40000bad => .custom
  | 0x80000001 => .process
  | _ => .other

/-- The least size that a block of the kind may state. For a process block that is less than its frame takes up; that
the content is missing shows when it is read. -/
def leastSize : BlockKind → Nat
  | .section => 28
  | .interface => 20
  | .simplePacket => 16
  | .nameResolution => 12
  | .statistics => 24
  | .enhancedPacket => 32
  | .secrets => 20
  | .custom => 16
  | .process => 4
  | .other => 12

/-- Whether the size at the end of a block is compared with the one at its front. -/
def repeatsSize : BlockKind → Bool
  | .section | .simplePacket | .other => false
  | _ => true

/-- The part of a block's content that is not looked into. -/
def unread (content : List UInt8) : BlockKind → List UInt8
  | .custom => content.drop 4
  | _ => []

theorem leastSize_pos (kind : BlockKind) : 0 < kind.leastSize := by
  cases kind <;> decide

end BlockKind

/-- The first `n` bytes and the rest. -/
def take (n : Nat) (bytes : List UInt8) : Except BlockFault (List UInt8 × List UInt8) :=
  match Bytes.split? n bytes with
  | some cut => .ok cut
  | none => .error (.unfinished (n - bytes.length))

/-- The order of bytes that a section block states with a number whose bytes all differ. -/
def sectionOrder (block : List UInt8) : Except BlockFault Endianness := do
  let (start, _) ← take 12 block
  let mark := start.drop 8
  if Endianness.little.toNat mark = 0x1a2b3c4d then return .little
  else if Endianness.big.toNat mark = 0x1a2b3c4d then return .big
  else throw .notRecognized

/-- The least multiple of four that is not below `n`. -/
def align (n : Nat) : Nat :=
  (n + 3) / 4 * 4

/-- So many bytes from the front, where they are filled up to a multiple of four. -/
def takeAligned (length : Nat) (rest : List UInt8) : Except BlockFault (List UInt8) := do
  let (padded, _) ← take (align length) rest
  return padded.take length

/-- The largest length accepted; a longer one, filled up to a multiple of four, might not fit 32 bits. -/
def lengthLimit : Nat := Word.count 32 - 6

/-- Goes through the records of a name resolution block up to the empty one behind the last. -/
def skipNames (order : Endianness) (records : List UInt8) : Except BlockFault Unit :=
  if _ : records.length < 4 then .error (.unfinished (4 - records.length))
  else if records.take 4 = [0, 0, 0, 0] then .ok ()
  else
    let size := 4 + align (order.numberAt records 2 2)
    if records.length < size then .error (.unfinished (size - records.length))
    else skipNames order (records.drop size)
termination_by records.length
decreasing_by
  simp only [List.length_drop]
  omega

/-- What a block says, from what stands between its first and its last size. -/
def blockOf (order : Endianness) (content : List UInt8) : BlockKind → Except BlockFault Block
  | .section => return .section order
  | .interface => return .interface (.ofNumber (order.numberAt content 0 2))
  | .simplePacket => do
    let (length, frame) ← take 4 content
    return .packet 0 (frame.take (order.toNat length))
  | .enhancedPacket => do
    let (fields, rest) ← take 20 content
    let length := order.numberAt fields 12 4
    if lengthLimit < length then throw (.malformed content)
    return .packet (order.numberAt fields 0 4) (← takeAligned length rest)
  | .nameResolution => do
    skipNames order content
    return .other
  | .secrets => do
    let (fields, rest) ← take 8 content
    let length := order.numberAt fields 4 4
    if lengthLimit < length then throw (.malformed rest)
    let _ ← takeAligned length rest
    return .other
  | .process => do
    let _ ← take 4 content
    return .other
  | .statistics | .custom | .other => return .other

/-- A block with its size in the file. -/
structure FramedBlock where
  block : Block
  size : Nat
  size_pos : 0 < size

/-- Reads the block of a kind, whose numbers have an order, at the front of the bytes. -/
def readBlockOf (order : Endianness) (kind : BlockKind) (bytes : List UInt8) : Except BlockFault FramedBlock := do
  let _ ← take (max 8 kind.leastSize) bytes
  let size := order.numberAt bytes 4 4
  if h : size < kind.leastSize then throw (.malformed (bytes.drop 8))
  else
    let (content, rest) ← take (size - 12) (bytes.drop 8)
    let (closing, _) ← take 4 rest
    if bufferSize < size then throw (.unfinished 1)
    let block ← blockOf order content kind
    if kind.repeatsSize && order.toNat closing != size then throw (.malformed (kind.unread content))
    return { block, size, size_pos := Nat.lt_of_lt_of_le kind.leastSize_pos (Nat.le_of_not_lt h) }

/-- Reads a section block, which states the order of its own numbers. -/
def readSection (bytes : List UInt8) : Except BlockFault FramedBlock := do
  readBlockOf (← sectionOrder bytes) .section bytes

/-- Reads the block at the front of the bytes in a section whose numbers have an order. -/
def readBlock (order : Endianness) (bytes : List UInt8) : Except BlockFault FramedBlock := do
  let (number, _) ← take 4 bytes
  match BlockKind.ofNumber (order.toNat number) with
  | .section => readSection bytes
  | kind => readBlockOf order kind bytes

/-- What the blocks read so far say about those to come, and their packets. -/
structure Progress where
  order : Endianness
  links : Array LinkType
  seen : Array Packet

/-- Takes note of a block; a packet of an interface that was not described is an Ethernet frame. -/
def Progress.note (p : Progress) : Block → Progress
  | .section order => { p with order }
  | .interface link => { p with links := p.links.push link }
  | .packet interface frame => { p with seen := p.seen.push ⟨p.links.getD interface .ethernet, frame⟩ }
  | .other => p

/-- The error of a file for a fault in one of its blocks. -/
def BlockFault.toError (rest : List UInt8) : BlockFault → CaptureError
  | unfinished missing => .unfinished .pcapng rest missing
  | notRecognized => .sectionNotRecognized
  | malformed rest => .blockMalformed rest

/-- Reads blocks until the bytes end. -/
def blocks (p : Progress) (bytes : List UInt8) : Trace :=
  if _ : bytes = [] then ⟨p.seen, none⟩
  else match readBlock p.order bytes with
    | .error fault => ⟨p.seen, some (fault.toError bytes)⟩
    | .ok b => blocks (p.note b.block) (bytes.drop b.size)
termination_by bytes.length
decreasing_by
  have := List.length_pos_iff.2 ‹bytes ≠ []›
  have := b.size_pos
  simp only [List.length_drop]
  omega

/-- The error of a file whose first block is faulty. -/
def BlockFault.toHeaderError : BlockFault → CaptureError
  | unfinished missing => .headerCutOff missing
  | notRecognized => .notRecognized
  | malformed rest => .headerMalformed rest

/-- Reads a file; it begins with a section. -/
def read (file : List UInt8) : Trace :=
  match readSection file with
  | .error fault => .failed fault.toHeaderError
  | .ok _ => blocks ⟨.little, #[], #[]⟩ file

end WireGrammar.Capture.Pcapng
