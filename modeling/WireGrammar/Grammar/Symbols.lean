import WireGrammar.Grammar.Leaf
import WireGrammar.Grammar.Reader
import WireGrammar.Symbol

/-!
# Symbols of a grammar

From declarations to symbols. The fields of all symbols are numbered in the order of the text, and a field's number is
the root of the identities of its variables, so a relation can refer to a field before that is built. A copy needs the
bounds of its target; the target is built first when it is asked for, and kept.

* `Grammar.Builder.variableOf`: the variable that a call describes.
* `Grammar.Builder.field`: the variable of a field. Of the fields under construction no two are the same.
* `Grammar.symbols`: the symbols that a text defines.
-/

namespace WireGrammar.Grammar

/-- A symbol's name with the name of one of its fields. -/
abbrev FieldKey : Type :=
  String × String

/-- The declarations, and the keys of all fields in their order. -/
structure Builder where
  decls : List SymbolDecl
  keys : List FieldKey

/-- Computations that keep the fields built so far. -/
abbrev Build (α : Type) : Type :=
  StateT (List (VarId × Variable)) (Except GrammarError) α

/-- What is built by a part that can fail in its definition. -/
def Build.ofBuilt {α : Type} (built : Built α) : Build α :=
  match built with
  | .ok x => pure x
  | .error e => throw (.definition e)

namespace Builder

/-- The keys of the fields of a symbol; no two are the same, nor the same as one before. -/
def addKeys (decl : SymbolDecl) : List FieldDecl → List FieldKey → Except GrammarError (List FieldKey)
  | [], keys => .ok keys
  | f :: rest, keys =>
    if keys.contains (decl.name, f.name) then .error (.definition (.duplicateField decl.name f.name))
    else addKeys decl rest (keys ++ [(decl.name, f.name)])

/-- The keys of all symbols, of which no two have the same name. -/
def collectKeys : List SymbolDecl → List String → List FieldKey → Except GrammarError (List FieldKey)
  | [], _, keys => .ok keys
  | decl :: rest, names, keys =>
    if names.contains decl.name then .error (.duplicateSymbol decl.name)
    else do collectKeys rest (decl.name :: names) (← addKeys decl decl.fields keys)

def ofDecls (decls : List SymbolDecl) : Except GrammarError Builder := do
  return ⟨decls, ← collectKeys decls [] []⟩

variable (b : Builder)

/-- The identity of a field. -/
def idOf (key : FieldKey) : Except GrammarError VarId :=
  match b.keys.idxOf? key with
  | some index => .ok (.ofRoot index)
  | none => .error (.unknownReference (key.1 ++ "." ++ key.2))

/-- The declaration of a symbol. -/
def declOf (name : String) : Except GrammarError SymbolDecl :=
  match b.decls.find? (·.name == name) with
  | some decl => .ok decl
  | none => .error (.unknownReference name)

mutual

/-- The fields that an argument of a relation refers to. -/
def targetsOf (symbol function : String) : Expr → Except GrammarError (List VarId)
  | .ref symbol? field => do return [← b.idOf (symbol?.getD symbol, field)]
  | .list items => targetsOfAll symbol function items
  | e => fault function (.sort "a field reference" e.sort)

def targetsOfAll (symbol function : String) : List Expr → Except GrammarError (List VarId)
  | [] => .ok []
  | e :: rest => do return (← targetsOf symbol function e) ++ (← targetsOfAll symbol function rest)

end

/-- The named type of a relation's value. -/
def namedType (call : Call) (name : String) (default : DataType) : Except GrammarError DataType :=
  match call.named? name with
  | some e => do (← asCall call.function e).leafType
  | none => .ok default

def sizeRule (call : Call) : Except GrammarError (Rule × DataType) := do
  call.checkNames ["type", "factor", "offset"]
  let type ← namedType call "type" (.uint .one)
  let factor ← call.namedNumber "factor" (.ofRatio false 1 8)
  let offset ← call.namedInt "offset" 0
  return (.size ⟨factor, offset⟩, type)

def keyedDigestRule (call : Call) : Except GrammarError (Rule × DataType) := do
  call.checkNames ["algorithm", "key"]
  let algorithm ← match call.named? "algorithm" with
    | some (.text name) => (HashAlgorithm.ofName name).mapError .definition
    | some e => fault call.function (.namedSort "algorithm" "a string" e.sort)
    | none => pure .sha256
  let key ← match call.named? "key" with
    | some e => asBytes call.function e
    | none => fault call.function (.missing "key")
  return (.keyedDigest algorithm key, .rawExactly algorithm.digestBytes)

def paddingRule (call : Call) : Except GrammarError (Rule × DataType) := do
  call.checkNames ["modulo", "pad", "once", "factor", "offset"]
  let modulo ← match call.named? "modulo" with
    | some (.int n) => count call.function n
    | some e => fault call.function (.namedSort "modulo" "an integer" e.sort)
    | none => fault call.function (.missing "modulo")
  let pad ← namedType call "pad" (.raw (.only [0]))
  let once ← call.namedBool "once" false
  let factor ← call.namedNumber "factor" (.ofNat 1)
  let offset ← call.namedInt "offset" 0
  return (.padding modulo once ⟨factor, offset⟩, pad)

/-- The functions that make relations of their targets; the other functions are none. -/
def ruleOf? (call : Call) : Option (Except GrammarError (Rule × DataType)) :=
  match call.function with
  | "size" => some (sizeRule call)
  | "internet_checksum" => some do
    call.checkNames []
    return (.internetChecksum, .uint .two)
  | "crc32" => some do
    call.checkNames []
    return (.crc32, .uint .four)
  | "hmac" => some (keyedDigestRule call)
  | "padding" => some (paddingRule call)
  | _ => none

/-- A relation on the fields that the arguments refer to. -/
def relation (symbol : String) (id : VarId) (name : String) (call : Call)
    (rule : Except GrammarError (Rule × DataType)) : Build Variable := do
  let targets ← b.targetsOfAll symbol call.function call.args
  let (rule, type) ← rule
  Build.ofBuilt (Variable.mkRelation { id, name, rule, targets, type })

/-- The count of a repetition, from a number or a range. -/
def repeatCount : Expr → Except GrammarError RepeatCount
  | .int n => .exactly <$> count "repeat" n
  | .range start stop inclusive => do
    return ⟨← count "repeat" start, ← count "repeat" (if inclusive then stop + 1 else stop)⟩
  | e => fault "repeat" (.namedSort "count" "an integer or a range" e.sort)

/-- A copy of the field that the one argument refers to; `target` builds that field. -/
def copy (target : FieldKey → Build Variable) (symbol : String) (id : VarId) (name : String) (call : Call) :
    Build Variable := do
  call.checkNames []
  match call.args with
  | [.ref symbol? field] =>
    let symbol ← match symbol? with
      | some other => (·.name) <$> b.declOf other
      | none => pure symbol
    Build.ofBuilt (Variable.mkCopy id name (← target (symbol, field)))
  | _ => fault "value" .expectedOneReference

mutual

/-- The variable that a call describes; `target` builds the fields that copies refer to. -/
def variableOf (target : FieldKey → Build Variable) (symbol : String) (id : VarId) (name : String) :
    Call → Build Variable
  | ⟨function, args, named, scope?⟩ => do
    let call : Call := ⟨function, args, named, scope?⟩
    match function with
    | "alt" =>
      call.checkNames []
      Build.ofBuilt (Variable.mkChoice id name (← childrenOf target symbol id name function 0 args))
    | "agg" =>
      call.checkNames []
      Build.ofBuilt (Variable.mkSequence id name (← childrenOf target symbol id name function 0 args))
    | "repeat" =>
      call.checkNames ["delimiter"]
      let (child, counts) ← repeatedOf target symbol (id.child 0) (name ++ "[]") args
      let counts ← repeatCount counts
      let delimiter ← match call.named? "delimiter" with
        | some e => some <$> asBits function e
        | none => pure none
      Build.ofBuilt (Variable.mkRepetition id name child counts delimiter)
    | "value" => b.copy target symbol id name call
    | _ =>
      match ruleOf? call with
      | some rule => b.relation symbol id name call rule
      | none => return .data id name (← call.leafType) (scope?.getD .ephemeral)

/-- The variable that the first of two arguments describes, and the other argument. -/
def repeatedOf (target : FieldKey → Build Variable) (symbol : String) (id : VarId) (name : String) :
    List Expr → Build (Variable × Expr)
  | [child, counts] => do return (← childOf target symbol id name "repeat" child, counts)
  | _ => fault "repeat" .expectedDomainAndCount

/-- The variable that an argument describes, which has to be a domain. -/
def childOf (target : FieldKey → Build Variable) (symbol : String) (id : VarId) (name function : String) :
    Expr → Build Variable
  | .call call => variableOf target symbol id name call
  | e => fault function (.sort "a domain" e.sort)

/-- The variables that the arguments of a node describe. -/
def childrenOf (target : FieldKey → Build Variable) (symbol : String) (id : VarId) (name function : String) :
    Nat → List Expr → Build (List Variable)
  | _, [] => return []
  | index, e :: rest => do
    let child ← childOf target symbol (id.child index) (name ++ "[" ++ toString index ++ "]") function e
    return child :: (← childrenOf target symbol id name function (index + 1) rest)

end

/--
The variable of a field, where the fields in `underway` are under construction. Each construction inside another opens
one field more, so `depth` of the number of fields is enough.
-/
def field : Nat → List FieldKey → FieldKey → Build Variable
  | depth, underway, key => do
    let id ← b.idOf key
    match (← get).lookup id with
    | some v => return v
    | none =>
      if underway.contains key then fault "value" (.dependsOnItself key.1 key.2)
      else match depth with
        | 0 => fault "value" (.dependsOnItself key.1 key.2)
        | depth + 1 =>
          let decl ← b.declOf key.1
          match decl.fields.find? (·.name == key.2) with
          | none => throw (.unknownReference (key.1 ++ "." ++ key.2))
          | some f =>
            let v ← b.variableOf (field depth (key :: underway)) key.1 id key.2 f.domain
            modify ((id, v) :: ·)
            return v

/-- The symbol of a declaration. -/
def symbol (decl : SymbolDecl) : Build Symbol := do
  let fields ← decl.fields.mapM fun f => do
    return (⟨f.name, ← b.field b.keys.length [] (decl.name, f.name)⟩ : Field)
  Build.ofBuilt (Symbol.build decl.name fields)

end Builder

/-- The symbols of declarations, in their order. -/
def symbolsOf (decls : List SymbolDecl) : Except GrammarError (List Symbol) := do
  let b ← Builder.ofDecls decls
  (decls.mapM b.symbol).run' []

/-- The symbols that a text defines, in their order. -/
def symbols (text : String) : Except GrammarError (List Symbol) := do
  symbolsOf (← declarations text)

end WireGrammar.Grammar
