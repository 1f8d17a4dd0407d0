import WireGrammar.Capture.Frame

/-!
# Traces

What a capture file holds: packets in order, and what was wrong with the file behind the last of them.

* `CaptureError.message`: the wording of what may be wrong.
-/

namespace WireGrammar.Capture

/-- The two formats of capture files. -/
inductive FileFormat where
  | pcap | pcapng
  deriving DecidableEq

def FileFormat.name : FileFormat → String
  | pcap => "pcap"
  | pcapng => "pcapng"

/-- Why a capture file cannot be read, or not to its end. -/
inductive CaptureError where
  /-- The file ends before its mark. -/
  | noMark
  | notRecognized
  /-- The file ends inside of its first header. -/
  | headerCutOff (missing : Nat)
  /-- The lengths in the first header contradict each other; the bytes from there on. -/
  | headerMalformed (rest : List UInt8)
  /-- The file ends inside of a packet or block. -/
  | cutOff (format : FileFormat)
  /-- A packet or block does not fit the buffer. -/
  | tooLong (format : FileFormat)
  /-- A later section does not tell the order of its bytes. -/
  | sectionNotRecognized
  /-- The lengths in a block contradict each other; the bytes from there on. -/
  | blockMalformed (rest : List UInt8)
  deriving DecidableEq

/-- Byte values in decimal, between brackets. -/
def byteList (bytes : List UInt8) : String :=
  "[" ++ ", ".intercalate (bytes.map fun b => toString b.toNat) ++ "]"

def CaptureError.message : CaptureError → String
  | noMark => "failed to fill whole buffer"
  | notRecognized => "Header not recognized as PCAP or PCAPNG"
  | headerCutOff missing => s!"Incomplete read: {missing}"
  | headerMalformed rest => s!"Internal parser error Verify, input {byteList rest}"
  | cutOff format => s!"{format.name} read error: UnexpectedEof"
  | tooLong format => s!"{format.name} read error: BufferTooSmall"
  | sectionNotRecognized => "pcapng read error: HeaderNotRecognized"
  | blockMalformed rest => s!"pcapng read error: NomError({byteList rest}, Verify)"

/-- The longest packet or block that can be read, in bytes. -/
def bufferSize : Nat := 0x100000

/-- The error for a packet or block that does not end in the bytes left, when so many are missing. One that would fill
the buffer is too long, whether or not the file ends before. -/
def CaptureError.unfinished (format : FileFormat) (rest : List UInt8) (missing : Nat) : CaptureError :=
  if bufferSize ≤ rest.length + missing then tooLong format else cutOff format

/-- A captured frame. -/
structure Packet where
  link : LinkType
  frame : List UInt8
  deriving DecidableEq

def Packet.udpPayload? (p : Packet) : Option (List UInt8) :=
  p.link.udpPayload? p.frame

/-- The packets of a file up to its end or its first error. -/
structure Trace where
  packets : Array Packet
  error? : Option CaptureError

/-- A file in which there is no packet before the error. -/
def Trace.failed (error : CaptureError) : Trace :=
  ⟨#[], some error⟩

end WireGrammar.Capture
