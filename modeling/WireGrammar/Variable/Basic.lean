import WireGrammar.Binary64.Text
import WireGrammar.DataType.Basic
import WireGrammar.Digest.Keyed

/-!
# Variables

A variable is a tree that describes what a field may hold. Its leaves hold data of a type, or values that a relation
computes from other variables; its nodes are choices, sequences and repetitions. Each variable has an identity, by
which relations, assignments and memory refer to it.

* `Variable.preorder`: the variable and all that it contains, from the top down and from left to right.
* `Variable.bounds`: the least and the greatest number of bits of its contents.
-/

namespace WireGrammar

/-- The identity of a variable: the number of a root, and the way from there down to the variable, last step first. -/
structure VarId where
  root : Nat
  branch : List Nat
  deriving DecidableEq, Inhabited

namespace VarId

/-- The identity of a root. -/
def ofRoot (root : Nat) : VarId :=
  ⟨root, []⟩

/-- The identity of the child with an index. -/
def child (id : VarId) (index : Nat) : VarId :=
  ⟨id.root, index :: id.branch⟩

end VarId

/-- How long the value of a data leaf lives. -/
inductive Scope where
  /-- Always the fixed or the remembered value. -/
  | constant
  /-- A fresh value in every message, which is remembered nevertheless. -/
  | ephemeral
  /-- A fresh value in every message, which is not remembered. -/
  | volatile
  /-- Chosen once in a session and used again from then on. -/
  | persistent
  deriving DecidableEq, Inhabited

namespace Scope

def name : Scope → String
  | constant => "constant"
  | ephemeral => "ephemeral"
  | volatile => "volatile"
  | persistent => "persistent"

def ofName? (name : String) : Option Scope :=
  [constant, ephemeral, volatile, persistent].find? (·.name == name)

/-- Whether a leaf uses a value that it has already. -/
def replays : Scope → Bool
  | constant | persistent => true
  | ephemeral | volatile => false

end Scope

/-- A linear function on lengths, computed in binary64 numbers. -/
structure Scale where
  factor : Binary64
  offset : Int
  deriving DecidableEq

namespace Scale

/-- The scaled length. -/
def apply (scale : Scale) (length : Nat) : Binary64 :=
  Binary64.ofNat length * scale.factor + Binary64.ofInt scale.offset

/-- How many units of the unscaled length make up a part of the scaled one. -/
def unapply (scale : Scale) (part : Nat) : Nat :=
  ((Binary64.ofNat part / scale.factor).truncate 0 (Word.count 64 - 1)).toNat

end Scale

/-- How the value of a relation comes from its targets. -/
inductive Rule where
  /-- The whole part of the scaled length of the targets. -/
  | size (scale : Scale)
  /-- The bits of the one target. -/
  | copy
  | internetChecksum
  | crc32
  | keyedDigest (algorithm : HashAlgorithm) (key : List UInt8)
  /--
  As much as makes the scaled length of the targets a multiple of `modulo`; with `once`, nothing when that length
  exceeds `modulo`.
  -/
  | padding (modulo : Nat) (once : Bool) (scale : Scale)
  deriving DecidableEq

namespace Rule

/-- Whether only the lengths of the targets matter. -/
def readsLengthsOnly : Rule → Bool
  | size _ | padding .. => true
  | copy | internetChecksum | crc32 | keyedDigest .. => false

def label : Rule → String
  | size _ => "Size"
  | copy => "Value"
  | internetChecksum => "InternetChecksum"
  | crc32 => "CRC32"
  | keyedDigest .. => "Hmac"
  | padding .. => "Padding"

end Rule

/-- A leaf whose value is computed from other variables. -/
structure Relation where
  id : VarId
  name : String
  rule : Rule
  targets : List VarId
  type : DataType
  deriving DecidableEq

/-- How often a repetition repeats: at least `least` times, and fewer than `stop` times. -/
structure RepeatCount where
  least : Nat
  stop : Nat
  deriving DecidableEq

namespace RepeatCount

def exactly (n : Nat) : RepeatCount :=
  ⟨n, n + 1⟩

/-- Whether only one count is left. -/
def isFixed (count : RepeatCount) : Bool :=
  count.stop == count.least + 1

/-- No repetition may reach this count. -/
def limit : Nat := 1000

end RepeatCount

/-- The tree that describes the contents of a field. -/
inductive Variable where
  | data (id : VarId) (name : String) (type : DataType) (scope : Scope)
  | relation (relation : Relation)
  /-- The content of any one child. -/
  | choice (id : VarId) (name : String) (children : List Variable)
  /-- The contents of all children in order. -/
  | sequence (id : VarId) (name : String) (children : List Variable)
  /-- Contents of the child, with the delimiter between them. -/
  | repetition (id : VarId) (name : String) (child : Variable) (count : RepeatCount) (delimiter : Option BitString)
  deriving Inhabited

namespace Variable

def id : Variable → VarId
  | data id .. | choice id .. | sequence id .. | repetition id .. => id
  | relation r => r.id

def name : Variable → String
  | data _ name .. | choice _ name _ | sequence _ name _ | repetition _ name .. => name
  | relation r => r.name

def label : Variable → String
  | data .. => "Data"
  | relation r => r.rule.label
  | choice .. => "Alt"
  | sequence .. => "Agg"
  | repetition .. => "Repeat"

def children : Variable → List Variable
  | choice _ _ children | sequence _ _ children => children
  | repetition _ _ child _ _ => [child]
  | data .. | relation _ => []

def relation? : Variable → Option Relation
  | relation r => some r
  | _ => none

/-- The variables that a relation reads. -/
def dependencies (v : Variable) : List VarId :=
  v.relation?.elim [] Relation.targets

/-- The same data leaf with another scope; any other variable is left as it is. -/
def withScope (scope : Scope) : Variable → Variable
  | data id name type _ => data id name type scope
  | v => v

mutual

/-- The variable and its descendants, each before its children. -/
def preorder : Variable → List Variable
  | v@(data ..) | v@(relation _) => [v]
  | v@(choice _ _ children) | v@(sequence _ _ children) => v :: preorderAll children
  | v@(repetition _ _ child _ _) => v :: preorder child

/-- The trees of a list one after the other. -/
def preorderAll : List Variable → List Variable
  | [] => []
  | v :: rest => preorder v ++ preorderAll rest

end

/-- The descendant, or the variable itself, with an identity. -/
def find? (v : Variable) (id : VarId) : Option Variable :=
  v.preorder.find? (·.id == id)

/-- The length of a delimiter. -/
def delimiterLength (delimiter : Option BitString) : Nat :=
  delimiter.elim 0 BitString.length

/-- The bounds of `n` instances of some length with delimiters between them. -/
def repeated (n length delimiter : Nat) : Nat :=
  length * n + delimiter * (n - 1)

/-- The bounds of a choice between contents with the given bounds. -/
def choiceBounds : List (Nat × Option Nat) → Nat × Option Nat
  | [] => (0, some 0)
  | [b] => b
  | b :: rest =>
    let r := choiceBounds rest
    (min b.1 r.1, b.2.bind fun m => r.2.map (max m ·))

/-- The bounds of a sequence of contents with the given bounds. -/
def sequenceBounds : List (Nat × Option Nat) → Nat × Option Nat
  | [] => (0, some 0)
  | b :: rest =>
    let r := sequenceBounds rest
    (b.1 + r.1, b.2.bind fun m => r.2.map (m + ·))

mutual

/-- The least and the greatest number of bits of the contents, without a greatest one if they are unbounded. -/
def bounds : Variable → Nat × Option Nat
  | data _ _ type _ => type.bounds
  | relation r => r.type.bounds
  | choice _ _ children => choiceBounds (boundsAll children)
  | sequence _ _ children => sequenceBounds (boundsAll children)
  | repetition _ _ child count delimiter =>
    let b := bounds child
    let d := delimiterLength delimiter
    (repeated count.least b.1 d, b.2.map fun m => repeated (count.stop - 1) m d)

def boundsAll : List Variable → List (Nat × Option Nat)
  | [] => []
  | v :: rest => bounds v :: boundsAll rest

end

end Variable

end WireGrammar
