import WireGrammar.Memory

/-!
# Assignments

What one interpretation of a message has settled so far: the contents of leaves and nodes, the values of relations,
the values learned, and the relations that still wait for their targets. Everything recorded stays below what is
recorded later, so a branch extends what it started from and never changes it.

* `Content`: bits mixed with slots, which stand for the value of a relation wherever that value is.
* `Assignment.flatten`, `measure`: the bits and the length of a content, as far as they are known.
* `Assignment.freeze`: a content with the values of settled relations put in place of their slots.
-/

namespace WireGrammar

/-- The length of parts put together. -/
def totalLength (lengths : List Nat) : Nat :=
  lengths.foldr (· + ·) 0

/-- A piece of a content. -/
inductive Chunk where
  | bits (bits : BitString)
  /-- Stands for the value of a relation. -/
  | slot (relation : VarId)
  deriving DecidableEq

/-- What a leaf or a node holds, piece by piece. -/
structure Content where
  chunks : List Chunk
  deriving DecidableEq, Inhabited

namespace Content

def empty : Content := ⟨[]⟩

instance : EmptyCollection Content := ⟨empty⟩

/-- The content of given bits. -/
def ofBits (bits : BitString) : Content :=
  ⟨[.bits bits]⟩

/-- The content that stands for a relation. -/
def slot (relation : VarId) : Content :=
  ⟨[.slot relation]⟩

/-- Bits more at the end: bits without a slot before them are one piece, and empty bits none. -/
def pushBits (content : Content) (bits : BitString) : Content :=
  if bits.isEmpty then content
  else match content.chunks.getLast? with
    | some (.bits last) => ⟨content.chunks.dropLast ++ [.bits (last ++ bits)]⟩
    | _ => ⟨content.chunks ++ [.bits bits]⟩

/-- A slot more at the end. -/
def pushSlot (content : Content) (relation : VarId) : Content :=
  ⟨content.chunks ++ [.slot relation]⟩

/-- One piece more at the end. -/
def push (content : Content) : Chunk → Content
  | .bits bits => content.pushBits bits
  | .slot relation => content.pushSlot relation

/-- All pieces of another content at the end. -/
def append (content other : Content) : Content :=
  other.chunks.foldl push content

/-- The relations that the slots stand for. -/
def slots (content : Content) : List VarId :=
  content.chunks.filterMap fun
    | .slot relation => some relation
    | .bits _ => none

end Content

/-- The value of a relation. -/
inductive Cell where
  | known (bits : BitString)
  /-- Still to come, its length perhaps known ahead. -/
  | awaited (length? : Option Nat)
  deriving DecidableEq

namespace Cell

def bits? : Cell → Option BitString
  | known bits => some bits
  | awaited _ => none

def length? : Cell → Option Nat
  | known bits => some bits.length
  | awaited length? => length?

end Cell

/-- What is recorded for a variable. -/
inductive Entry where
  | content (content : Content)
  | cell (cell : Cell)
  deriving DecidableEq

/-- The state of one interpretation. -/
structure Assignment where
  /-- The newest record first. -/
  entries : List (VarId × Entry)
  /-- The newest value first. -/
  learned : List (VarId × BitString)
  committed : Store
  /-- The variables of the message itself: a relation waits for these and does not read them from memory. -/
  scope : List VarId
  /-- The relations that wait for a target. -/
  pending : List Relation
  deriving Inhabited

namespace Assignment

/-- Nothing settled, and nothing remembered. -/
def empty : Assignment where
  entries := []
  learned := []
  committed := .empty
  scope := []
  pending := []

/-- Nothing settled, with the committed values of a memory. -/
def ofMemory (memory : Memory) (scope : List VarId) : Assignment :=
  { empty with committed := memory.committed, scope }

variable (a : Assignment)

/-- The newest record of a variable. -/
def entry? (id : VarId) : Option Entry :=
  a.entries.lookup id

/-- Records the content of a leaf or a node. -/
def record (id : VarId) (content : Content) : Assignment :=
  { a with entries := (id, .content content) :: a.entries }

/-- Records the value of a relation. -/
def setCell (id : VarId) (cell : Cell) : Assignment :=
  { a with entries := (id, .cell cell) :: a.entries }

/-- The value of a relation. -/
def cell? (id : VarId) : Option Cell :=
  match a.entry? id with
  | some (.cell cell) => some cell
  | _ => none

/-- The bits of a piece; those of the relation `exclude` read as zeros. -/
def chunkBits? (exclude : Option VarId) : Chunk → Option BitString
  | .bits bits => some bits
  | .slot id => do
    let cell ← a.cell? id
    if some id = exclude then BitString.zeros <$> cell.length? else cell.bits?

/-- The bits of a content, if all of them are known; those of the relation `exclude` read as zeros. -/
def flatten (content : Content) (exclude : Option VarId) : Option BitString :=
  BitString.concat <$> content.chunks.mapM (a.chunkBits? exclude)

def chunkLength? : Chunk → Option Nat
  | .bits bits => some bits.length
  | .slot id => (a.cell? id).bind Cell.length?

/-- The length of a content, which may be known before its bits. -/
def measure (content : Content) : Option Nat :=
  totalLength <$> content.chunks.mapM a.chunkLength?

/-- The content of a variable; a relation reads as its own slot. -/
def content? (id : VarId) : Option Content :=
  (a.entry? id).map fun
    | .content content => content
    | .cell _ => Content.slot id

/-- The bits of a variable, if all of them are known. -/
def bits? (id : VarId) : Option BitString :=
  match a.entry? id with
  | some (.content content) => a.flatten content none
  | some (.cell cell) => cell.bits?
  | none => none

/-- The length of a variable, which may be known before its bits. -/
def length? (id : VarId) : Option Nat :=
  match a.entry? id with
  | some (.content content) => a.measure content
  | some (.cell cell) => cell.length?
  | none => none

def isPending (id : VarId) : Bool :=
  a.pending.any (·.id == id)

/-- Adds one piece to a content, with the value in place of a slot if its relation has settled. -/
def freezeChunk (content : Content) : Chunk → Content
  | .bits bits => content.pushBits bits
  | .slot id =>
    match a.isPending id, (a.cell? id).bind Cell.bits? with
    | false, some bits => content.pushBits bits
    | _, _ => content.pushSlot id

/-- The content with the values of settled relations in it, which later records of these relations do not change. -/
def freeze (content : Content) : Content :=
  content.chunks.foldl a.freezeChunk .empty

/-- Learns a value in this interpretation. -/
def learn (id : VarId) (value : BitString) : Assignment :=
  { a with learned := (id, value) :: a.learned }

/-- The value learned in this interpretation, otherwise the committed one. -/
def known? (id : VarId) : Option BitString :=
  (a.learned.lookup id).or (a.committed.get? id)

/-- The values learned, the newest for each variable. -/
def learnedStore : Store :=
  Store.empty.union ⟨a.learned⟩

/-- The bits of a target: from this interpretation, or from memory if it is no variable of the message. -/
def targetBits? (id : VarId) (exclude : VarId) : Option BitString :=
  match a.entry? id with
  | some (.content content) => a.flatten content (some exclude)
  | some (.cell cell) => cell.bits?
  | none => if a.scope.contains id then none else a.known? id

/-- The length of a target: from this interpretation, or from memory if it is no variable of the message. -/
def targetLength? (id : VarId) : Option Nat :=
  match a.entry? id with
  | some _ => a.length? id
  | none => if a.scope.contains id then none else (a.known? id).map BitString.length

/-- Lets a relation wait, unless it does already. -/
def awaitRelation (r : Relation) : Assignment :=
  if a.isPending r.id then a else { a with pending := a.pending ++ [r] }

/-- Ends the wait of a relation. -/
def endWait (id : VarId) : Assignment :=
  { a with pending := a.pending.filter (·.id != id) }

end Assignment

end WireGrammar
