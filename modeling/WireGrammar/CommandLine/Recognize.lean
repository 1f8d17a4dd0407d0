import WireGrammar.Capture.File
import WireGrammar.CommandLine.Outcome
import WireGrammar.Session

/-!
# The command that recognizes the messages of a capture

Reads every UDP payload of a capture as a message of a grammar and counts the messages of each symbol. What one
message teaches holds for the next, unless the command is told to remember nothing.

* `Recognize.run`: the outcome of the command.
-/

namespace WireGrammar.CommandLine

/-- What to recognize. -/
structure RecognizeOptions where
  grammar : String
  capture : String
  /-- Whether every message is shown. -/
  verbose : Bool
  /-- Whether messages teach nothing. -/
  forgetful : Bool
  deriving DecidableEq

/-- How many there were of each name, in the order of the names. -/
abbrev Counts : Type := List (String × Nat)

namespace Counts

/-- Counts one more of a name. -/
def count (name : String) : Counts → Counts
  | [] => [(name, 1)]
  | (other, n) :: rest =>
    if name = other then (other, n + 1) :: rest
    else if name < other then (name, 1) :: (other, n) :: rest
    else (other, n) :: count name rest

end Counts

namespace Recognize

/-- What has been seen and shown of a capture so far. -/
structure Progress where
  session : Session Pcg64
  packets : Nat
  payloads : Nat
  unknown : Nat
  counts : Counts
  shown : Array String

def Progress.start (options : RecognizeOptions) : Progress :=
  let config := SessionConfig.ofSeed 0
  let settings := { config.settings with persist := !options.forgetful }
  { session := .ofConfig { config with settings }, packets := 0, payloads := 0, unknown := 0, counts := [],
    shown := #[] }

/-- A number at the right end of a column of five characters. -/
def column (n : Nat) : String :=
  let digits := toString n
  "".pushn ' ' (5 - digits.length) ++ digits

/-- The lines that show a message: its packet and symbol, then each field with its offset in bytes. -/
def showMessage (packet : Nat) (m : Message) : List String :=
  s!"packet {packet}: {m.symbol}" ::
    m.fields.map fun f => s!"  {column (f.offset / 8)}  {f.name}: {f.bits.key}"

/-- How many bytes are shown of a payload that is no message. -/
def shownBytes : Nat := 16

def showUnknown (packet : Nat) (payload : List UInt8) : String :=
  let front := payload.take shownBytes
  s!"packet {packet}: no symbol (first {front.length} bytes: {Text.hex front})"

variable (symbols : List Symbol) (verbose : Bool)

/-- Reads one payload. -/
def Progress.notePayload (p : Progress) (payload : List UInt8) : Progress :=
  let p := { p with payloads := p.payloads + 1 }
  match p.session.recognize symbols payload with
  | (some m, session) =>
    { p with
      session
      counts := p.counts.count m.symbol
      shown := if verbose then p.shown ++ showMessage p.packets m else p.shown }
  | (none, session) =>
    { p with
      session
      unknown := p.unknown + 1
      shown := if verbose then p.shown.push (showUnknown p.packets payload) else p.shown }

/-- Reads one packet. -/
def Progress.notePacket (p : Progress) (packet : Capture.Packet) : Progress :=
  let p := { p with packets := p.packets + 1 }
  match packet.udpPayload? with
  | some payload => p.notePayload symbols verbose payload
  | none => p

/-- The lines about the whole capture. -/
def Progress.summary (options : RecognizeOptions) (p : Progress) : List String :=
  [s!"capture: {options.capture}", s!"grammar: {options.grammar}", s!"packets: {p.packets}",
    s!"udp payloads: {p.payloads}", s!"unknown: {p.unknown}"] ++
  if p.counts.isEmpty then [] else "symbols:" :: p.counts.map fun (name, n) => s!"  {name}: {n}"

/-- Lines with their ends. -/
def unlines (lines : List String) : String :=
  String.join (lines.map (· ++ "\n"))

/-- Runs the command on the text of its grammar file and the bytes of its capture file, if they can be read. -/
def run (options : RecognizeOptions) (grammar? : Option String) (capture? : Option (List UInt8)) : Outcome :=
  .ofExcept do
    let symbols ← loadGrammar options.grammar grammar?
    let some file := capture? | throw s!"opening {options.capture}"
    let trace := Capture.Trace.ofFile file
    let p := trace.packets.foldl (Progress.notePacket symbols options.verbose) (.start options)
    let written := Text.utf8 (unlines p.shown.toList)
    match trace.error? with
    | some e => return .failure written e.message
    | none => return .success written (unlines (p.summary options))

end Recognize

end WireGrammar.CommandLine
