import WireGrammar.Main
import WireGrammar.Binary64.Text
import WireGrammar.DataType.Codec
import WireGrammar.Proofs.Bits.ListView
import WireGrammar.Proofs.DataType.Lengths
import WireGrammar.Proofs.Assignment.Content
import WireGrammar.Proofs.Assignment.Known
import WireGrammar.Proofs.Interpretation.Enumeration
import WireGrammar.Proofs.Generation.Runs
import WireGrammar.Proofs.Message.Faithful
import WireGrammar.Proofs.Relation.Stability
import WireGrammar.Proofs.Interpretation.Search
import WireGrammar.Proofs.Repetition.SizedGeneration
import WireGrammar.Proofs.Message.Generated
import WireGrammar.Proofs.Assignment.Discipline
import WireGrammar.Proofs.Generation.Discipline
import WireGrammar.Proofs.Generation.Closed
import WireGrammar.Proofs.Generation.Failures
import WireGrammar.Proofs.Interpretation.Discipline
import WireGrammar.Proofs.Message.Complete
import WireGrammar.Proofs.Generation.Modes
import WireGrammar.Proofs.Message.Learning
import WireGrammar.Proofs.Session.Memory
import WireGrammar.Proofs.Interpretation.Followed
import WireGrammar.Proofs.Repetition.Accepted
import WireGrammar.Proofs.Session.Persistence
import WireGrammar.Proofs.Message.Spelled
import WireGrammar.Proofs.Message.Bytewise
import WireGrammar.Proofs.Session.RoundTrip
import WireGrammar.Proofs.Session.Atomicity
import WireGrammar.Proofs.Assignment.Twin
import WireGrammar.Proofs.Interpretation.Twin
import WireGrammar.Proofs.Generation.Twin
import WireGrammar.Proofs.Message.Isolation
import WireGrammar.Proofs.Message.Cycles
import WireGrammar.Proofs.Grammar.Rendering
import WireGrammar.Proofs.Grammar.Words
import WireGrammar.Proofs.Grammar.Gaps
import WireGrammar.Proofs.Grammar.ReaderSteps
import WireGrammar.Proofs.Grammar.ReadWords
import WireGrammar.Proofs.Grammar.Reads
import WireGrammar.Proofs.Grammar.Rereads
import WireGrammar.Proofs.Grammar.Writable
import WireGrammar.Proofs.Generation.Ranges
import WireGrammar.Proofs.Interpretation.Copies
import WireGrammar.Proofs.Interpretation.Paddings
import WireGrammar.Proofs.Symbol.Acyclic
import WireGrammar.Proofs.Binary64.Exact
import WireGrammar.Proofs.Relation.Numbers
import WireGrammar.Proofs.Relation.Alignment
import WireGrammar.Proofs.Interpretation.Position
import WireGrammar.Proofs.DataType.Codecs
import WireGrammar.Proofs.Generation.Order
import WireGrammar.Proofs.Message.Search
import WireGrammar.Proofs.Session.Bounds
import WireGrammar.Proofs.Session.Foreign
import WireGrammar.Proofs.Message.Budget
import WireGrammar.Proofs.Grammar.Escapes
import WireGrammar.Proofs.Grammar.CopyCycles
import WireGrammar.Proofs.Generation.MutatorCalls
import WireGrammar.Proofs.Value.Keys
import WireGrammar.Proofs.Checksum.Internet
import WireGrammar.Proofs.Checksum.Crc32
import WireGrammar.Proofs.Capture.Payload
import WireGrammar.Proofs.Assignment.Meaning
import WireGrammar.Proofs.DataType.Candidates
import WireGrammar.Proofs.Mutation.ShiftRegister
