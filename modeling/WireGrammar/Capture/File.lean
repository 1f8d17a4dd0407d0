import WireGrammar.Capture.Pcap
import WireGrammar.Capture.Pcapng

/-!
# Capture files

The mark at the front of a capture file tells which of the two formats it is in.
-/

namespace WireGrammar.Capture

/-- The mark of a file that is a sequence of blocks. -/
def blockMark : List UInt8 := [0x0a, 0x0d, 0x0d, 0x0a]

/-- Reads a capture file. -/
def Trace.ofFile (file : List UInt8) : Trace :=
  match Bytes.split? 4 file with
  | none => .failed .noMark
  | some (mark, _) => if mark = blockMark then Pcapng.read file else Pcap.read file

end WireGrammar.Capture
