import WireGrammar.Capture.Trace

/-!
# The classic capture format

A file header, then records: a header each and the bytes of one frame. The mark at the front of the file tells the
order of the bytes in all headers and the layout of the record headers.

* `Pcap.Header.read`: the file header.
* `Pcap.read`: the whole file.
-/

namespace WireGrammar.Capture.Pcap

/-- The layout of a record header; the extended one goes on with the interface. -/
inductive RecordLayout where
  | plain | extended
  deriving DecidableEq

def RecordLayout.size : RecordLayout → Nat
  | plain => 16
  | extended => 24

theorem RecordLayout.size_pos (layout : RecordLayout) : 0 < layout.size := by
  cases layout <;> decide

/-- What the file header says about the records. -/
structure Header where
  order : Endianness
  layout : RecordLayout
  link : LinkType
  deriving DecidableEq

/-- The order of bytes and the layout that a mark stands for; times are in micro- or nanoseconds. -/
def ofMark? (mark : Nat) : Option (Endianness × RecordLayout) :=
  if mark = 0xa1b2c3d4 ∨ mark = 0xa1b23c4d then some (.little, .plain)
  else if mark = 0xa1b2cd34 then some (.little, .extended)
  else if mark = 0xd4c3b2a1 ∨ mark = 0x4d3cb2a1 then some (.big, .plain)
  else none

def headerSize : Nat := 24

/-- Where the fields behind the mark end: two numbers of the version, zone, accuracy, limit and link type. -/
def fieldEnds : List Nat := [6, 8, 12, 16, 20, headerSize]

/-- Reads the file header; of one that is cut off it tells what is missing of the field it ends in. -/
def Header.read (file : List UInt8) : Except CaptureError Header :=
  match ofMark? (Endianness.little.numberAt file 0 4) with
  | none => .error .notRecognized
  | some (order, layout) =>
    match fieldEnds.find? (file.length < ·) with
    | some fieldEnd => .error (.headerCutOff (fieldEnd - file.length))
    | none => .ok { order, layout, link := .ofNumber (order.numberAt file 20 4) }

/-- The frame of the record at the front of the bytes; of one that is cut off, how many bytes are missing. -/
def frame (header : Header) (bytes : List UInt8) : Except Nat (List UInt8) :=
  match Bytes.split? header.layout.size bytes with
  | none => .error (header.layout.size - bytes.length)
  | some (fields, rest) =>
    let length := header.order.numberAt fields 8 4
    match Bytes.split? length rest with
    | none => .error (length - rest.length)
    | some (frame, _) => if bufferSize < header.layout.size + length then .error 1 else .ok frame

/-- Reads records until the bytes end, behind the packets seen before. -/
def records (header : Header) (bytes : List UInt8) (seen : Array Packet) : Trace :=
  if _ : bytes = [] then ⟨seen, none⟩
  else match frame header bytes with
    | .error missing => ⟨seen, some (.unfinished .pcap bytes missing)⟩
    | .ok frame =>
      records header (bytes.drop (header.layout.size + frame.length)) (seen.push ⟨header.link, frame⟩)
termination_by bytes.length
decreasing_by
  have := List.length_pos_iff.2 ‹bytes ≠ []›
  have := header.layout.size_pos
  simp only [List.length_drop]
  omega

/-- Reads a file. -/
def read (file : List UInt8) : Trace :=
  match Header.read file with
  | .error e => .failed e
  | .ok header => records header (file.drop headerSize) #[]

end WireGrammar.Capture.Pcap
