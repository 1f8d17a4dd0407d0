import WireGrammar.Proofs.Grammar.Wiring

/-!
# What is read of arguments

A call mentions copies of fields in its arguments (`Expr.Mentions`). Whatever reads arguments fails only for other
reasons than a field that depends on itself (`Blameless`), and where it succeeds it has read no copy (`Expr.Silent`):
the type of a leaf, the rule of a relation, the count of a repetition. So when a variable is built for a call, all that
the call mentions has been built before (`Call.Describes.mentions`).
-/

namespace WireGrammar.Grammar

open Builder

/-! ## What a domain mentions -/

/-- A call gives an argument under a name. -/
def Call.Gives (call : Call) (name : String) (e : Expr) : Prop :=
  (name, e) ∈ call.named

/-- The argument of a name that a call reads, which is the first one that it gives. -/
def Call.Reads (call : Call) (name : String) (e : Expr) : Prop :=
  call.named? name = some e

/-- An expression mentions a copy of a field at any depth, where `counts` says which named arguments of a call count. -/
inductive Expr.Mentions (counts : Call → String → Expr → Prop) : Expr → Reference → Prop
  | value {ref : Reference} {named scope?} : Mentions counts (.call ⟨"value", [.ref ref.1 ref.2], named, scope?⟩) ref
  | arg {call : Call} {e ref} : e ∈ call.args → Mentions counts e ref → Mentions counts (.call call) ref
  | named {call : Call} {name e ref} : counts call name e → Mentions counts e ref → Mentions counts (.call call) ref
  | item {items e ref} : e ∈ items → Mentions counts e ref → Mentions counts (.list items) ref

namespace Builder

/-! ## Errors about other things -/

/-- The field of which an error says that it depends on itself. -/
def selfDependent? : GrammarError → Option FieldKey
  | .badArgument _ (.dependsOnItself symbol field) => some (symbol, field)
  | _ => none

theorem selfDependent?_eq_some {e : GrammarError} {key : FieldKey} (h : selfDependent? e = some key) :
    ∃ function, e = .badArgument function (.dependsOnItself key.1 key.2) := by
  unfold selfDependent? at h
  split at h
  next function symbol field =>
    cases h
    exact ⟨function, rfl⟩
  next => cases h

/-- A computation fails only for other reasons than a field that depends on itself. -/
def Blameless {α : Type} (m : Except GrammarError α) : Prop :=
  ∀ e, m = .error e → selfDependent? e = none

section Blameless

variable {α β : Type} {m : Except GrammarError α} {call : Call} {b : Builder}

theorem Blameless.ok (x : α) : Blameless (.ok x : Except GrammarError α) :=
  nofun

theorem blameless_error {e : GrammarError} :
    Blameless (.error e : Except GrammarError α) ↔ selfDependent? e = none :=
  ⟨fun h => h e rfl, fun h _ he => by cases he; exact h⟩

theorem Blameless.bind {f : α → Except GrammarError β} (h : Blameless m) (hf : ∀ x, Blameless (f x)) :
    Blameless (m >>= f) := by
  cases m with
  | error e => exact blameless_error.mpr (h e rfl)
  | ok x => exact hf x

theorem Blameless.map {f : α → β} (h : Blameless m) : Blameless (f <$> m) := by
  rw [map_eq_pure_bind]
  exact h.bind fun x => .ok _

theorem blameless_fault {function : String} {e : ArgumentFault} (h : selfDependent? (.badArgument function e) = none) :
    Blameless (fault function e : Except GrammarError α) :=
  blameless_error.mpr h

theorem blameless_ofType (made : Except TypeError α) : Blameless (ofType made) := by
  cases made with
  | error e => exact blameless_error.mpr rfl
  | ok x => exact .ok x

theorem count_blameless (function : String) (n : Int) : Blameless (count function n) := by
  unfold count
  split
  · exact .ok _
  · exact blameless_fault rfl

theorem lengthBounds_blameless (function : String) (e : Expr) : Blameless (lengthBounds function e) := by
  unfold lengthBounds
  split
  · exact (count_blameless _ _).bind fun _ => .ok _
  · exact (count_blameless _ _).bind fun _ => (count_blameless _ _).bind fun _ => .ok _
  · exact blameless_fault rfl

theorem asCall_blameless (function : String) (e : Expr) : Blameless (asCall function e) := by
  unfold asCall
  split
  · exact .ok _
  · exact blameless_fault rfl

theorem asBytes_blameless (function : String) (e : Expr) : Blameless (asBytes function e) := by
  unfold asBytes
  split
  · exact .ok _
  · exact .ok _
  · exact blameless_fault rfl

theorem asBits_blameless (function : String) (e : Expr) : Blameless (asBits function e) := by
  unfold asBits
  split
  · exact .ok _
  · exact (asBytes_blameless _ _).map

theorem checkNames_blameless (names : List String) : Blameless (call.checkNames names) := by
  unfold Call.checkNames
  split
  · exact blameless_fault rfl
  · exact .ok _

theorem integerLeaf_blameless (function : String) (format : IntegerFormat) (arg? : Option Expr) :
    Blameless (integerLeaf function format arg?) := by
  unfold integerLeaf
  split
  · exact .ok _
  · exact (blameless_ofType _).map
  · exact (blameless_ofType _).map
  · split
    · split
      · exact (blameless_ofType _).map
      · exact blameless_fault rfl
    · exact blameless_fault rfl

theorem otherLeaf_blameless (function : String) (arg? : Option Expr) : Blameless (otherLeaf function arg?) := by
  unfold otherLeaf
  split
  · exact blameless_ofType _
  · exact .ok _
  · exact .ok _
  · exact (lengthBounds_blameless _ _).bind fun _ => blameless_ofType _
  · exact blameless_ofType _
  · exact blameless_ofType _
  · exact (lengthBounds_blameless _ _).bind fun _ => blameless_ofType _
  · exact blameless_ofType _
  · exact .ok _
  · exact (lengthBounds_blameless _ _).bind fun _ => blameless_ofType _
  · exact .ok _
  · split
    · exact .ok _
    · exact blameless_fault rfl
  · exact .ok _
  · split
    · exact .ok _
    · exact blameless_fault rfl
  · exact blameless_fault rfl
  · exact blameless_fault rfl
  · exact blameless_error.mpr rfl

theorem leafType_blameless (call : Call) : Blameless call.leafType := by
  unfold Call.leafType
  refine (checkNames_blameless _).bind fun _ => ?_
  dsimp only
  split
  all_goals
    refine Blameless.bind ?_ fun arg? => ?_
    rotate_left
    · split
      · exact (blameless_ofType _).bind fun _ => integerLeaf_blameless _ _ _
      · exact otherLeaf_blameless _ _
  · exact .ok _
  · exact .ok _
  · exact blameless_fault rfl

theorem namedType_blameless (name : String) (default : DataType) : Blameless (namedType call name default) := by
  unfold namedType
  split
  · exact (asCall_blameless _ _).bind fun _ => leafType_blameless _
  · exact .ok _

theorem namedNumber_blameless (name : String) (default : Binary64) : Blameless (call.namedNumber name default) := by
  unfold Call.namedNumber
  split
  · exact .ok _
  · exact .ok _
  · exact blameless_fault rfl
  · exact .ok _

theorem namedInt_blameless (name : String) (default : Int) : Blameless (call.namedInt name default) := by
  unfold Call.namedInt
  split
  · split
    · exact .ok _
    · exact blameless_fault rfl
  · exact blameless_fault rfl
  · exact .ok _

theorem namedBool_blameless (name : String) (default : Bool) : Blameless (call.namedBool name default) := by
  unfold Call.namedBool
  split
  · exact .ok _
  · exact blameless_fault rfl
  · exact .ok _

theorem sizeRule_blameless (call : Call) : Blameless (sizeRule call) :=
  (checkNames_blameless _).bind fun _ => (namedType_blameless _ _).bind fun _ =>
    (namedNumber_blameless _ _).bind fun _ => (namedInt_blameless _ _).bind fun _ => .ok _

theorem keyedDigestRule_blameless (call : Call) : Blameless (keyedDigestRule call) := by
  unfold keyedDigestRule
  refine (checkNames_blameless _).bind fun _ => ?_
  dsimp only
  split
  all_goals
    refine Blameless.bind ?_ fun algorithm => ?_
    rotate_left
    · split
      · exact (asBytes_blameless _ _).bind fun _ => .ok _
      · exact (blameless_fault rfl).bind fun _ => .ok _
  next name _ =>
    cases HashAlgorithm.ofName name with
    | error e => exact blameless_error.mpr rfl
    | ok algorithm => exact .ok _
  · exact blameless_fault rfl
  · exact .ok _

theorem paddingRule_blameless (call : Call) : Blameless (paddingRule call) := by
  have padded (modulo : Nat) : Blameless (do
      let pad ← namedType call "pad" (.raw (.only [0]))
      let once ← call.namedBool "once" false
      let factor ← call.namedNumber "factor" (.ofNat 1)
      let offset ← call.namedInt "offset" 0
      return (Rule.padding modulo once ⟨factor, offset⟩, pad)) :=
    (namedType_blameless _ _).bind fun _ => (namedBool_blameless _ _).bind fun _ =>
      (namedNumber_blameless _ _).bind fun _ => (namedInt_blameless _ _).bind fun _ => .ok _
  unfold paddingRule
  refine (checkNames_blameless _).bind fun _ => ?_
  dsimp only
  split
  · exact (count_blameless _ _).bind padded
  · exact (blameless_fault rfl).bind padded
  · exact (blameless_fault rfl).bind padded

theorem ruleOf?_blameless {made : Except GrammarError (Rule × DataType)} (h : ruleOf? call = some made) :
    Blameless made := by
  unfold ruleOf? at h
  split at h
  all_goals cases h
  · exact sizeRule_blameless _
  · exact (checkNames_blameless _).bind fun _ => .ok _
  · exact (checkNames_blameless _).bind fun _ => .ok _
  · exact keyedDigestRule_blameless _
  · exact paddingRule_blameless _

theorem repeatCount_blameless (e : Expr) : Blameless (repeatCount e) := by
  unfold repeatCount
  split
  · exact (count_blameless _ _).map
  · exact (count_blameless _ _).bind fun _ => (count_blameless _ _).bind fun _ => .ok _
  · exact blameless_fault rfl

theorem idOf_blameless (key : FieldKey) : Blameless (b.idOf key) := by
  unfold idOf
  split
  · exact .ok _
  · exact blameless_error.mpr rfl

theorem declOf_blameless (name : String) : Blameless (b.declOf name) := by
  unfold declOf
  split
  · exact .ok _
  · exact blameless_error.mpr rfl

theorem targets_blameless (symbol function : String) :
    (∀ e, Blameless (b.targetsOf symbol function e)) ∧ ∀ es, Blameless (b.targetsOfAll symbol function es) := by
  refine targetsOf.mutual_induct _ _ ?_ ?_ ?_ ?_ ?_
  · intro symbol? field
    rw [targetsOf]
    exact (idOf_blameless _).bind fun _ => .ok _
  · intro items ih
    rwa [targetsOf]
  · intro e hr hl
    rw [targetsOf]
    · exact blameless_fault rfl
    · exact hr
    · exact hl
  · rw [targetsOfAll]
    exact .ok _
  · intro e rest he hrest
    rw [targetsOfAll]
    exact he.bind fun _ => hrest.bind fun _ => .ok _

theorem addKeys_blameless (decl : SymbolDecl) (fs : List FieldDecl) (keys : List FieldKey) :
    Blameless (addKeys decl fs keys) := by
  induction fs generalizing keys with
  | nil => exact .ok _
  | cons f rest ih =>
    rw [addKeys]
    split
    · exact blameless_error.mpr rfl
    · exact ih _

theorem ofDecls_blameless (decls : List SymbolDecl) : Blameless (ofDecls decls) := by
  have collected (names : List String) (keys : List FieldKey) : Blameless (collectKeys decls names keys) := by
    induction decls generalizing names keys with
    | nil => exact .ok _
    | cons decl rest ih =>
      rw [collectKeys]
      split
      · exact blameless_error.mpr rfl
      · exact (addKeys_blameless _ _ _).bind fun _ => ih _ _
  exact (collected _ _).bind fun _ => .ok _

end Blameless

end Builder

/-! ## Arguments without copies -/

/-- An expression without parts that is no reference. -/
def Expr.isLiteral : Expr → Bool
  | .call _ | .list _ | .ref .. => false
  | _ => true

/-- An expression that does not mention a copy, as far as it is read. -/
def Expr.Silent (e : Expr) : Prop :=
  ∀ ref, ¬ e.Mentions Call.Reads ref

section Silent

variable {counts : Call → String → Expr → Prop} {call : Call} {e : Expr} {ref : Reference} {name function : String}

/-- A call that mentions a copy is one, or has an argument that mentions it. -/
theorem Expr.Mentions.of_call (h : Expr.Mentions counts (.call call) ref) :
    (call.function = "value" ∧ call.args = [.ref ref.1 ref.2]) ∨ (∃ e ∈ call.args, e.Mentions counts ref) ∨
      ∃ name e, counts call name e ∧ e.Mentions counts ref := by
  cases h with
  | value => exact .inl ⟨rfl, rfl⟩
  | arg he hm => exact .inr (.inl ⟨_, he, hm⟩)
  | named hn hm => exact .inr (.inr ⟨_, _, hn, hm⟩)

theorem silent_of_isLiteral (h : e.isLiteral) : e.Silent := by
  intro ref hm
  cases hm <;> cases h

theorem allReferences?_eq_none {es : List Expr} (he : e ∈ es) (h : e.references? = none) :
    Expr.allReferences? es = none := by
  induction es with
  | nil => cases he
  | cons own rest ih =>
    rw [Expr.allReferences?]
    rcases List.mem_cons.mp he with rfl | he
    · rw [h]
      rfl
    · rw [ih he]
      cases own.references? <;> rfl

/-- What mentions a copy is not made of references. -/
theorem Expr.Mentions.references?_eq_none (h : e.Mentions counts ref) : e.references? = none := by
  induction h with
  | value | arg | named => simp [Expr.references?]
  | item he _ ih => rw [Expr.references?, allReferences?_eq_none he ih]

theorem isLiteral_of_lengthBounds {bounds : Nat × Nat} (h : lengthBounds function e = .ok bounds) : e.isLiteral := by
  unfold lengthBounds at h
  split at h
  · rfl
  · rfl
  · cases h

theorem isLiteral_of_asBytes {bytes : List UInt8} (h : asBytes function e = .ok bytes) : e.isLiteral := by
  unfold asBytes at h
  split at h
  · rfl
  · rfl
  · cases h

theorem isLiteral_of_asBits {bits : BitString} (h : asBits function e = .ok bits) : e.isLiteral := by
  unfold asBits at h
  split at h
  · rfl
  · cases hb : asBytes function e with
    | error e => rw [hb] at h; cases h
    | ok bytes => exact isLiteral_of_asBytes hb

theorem isLiteral_of_repeatCount {count : RepeatCount} (h : repeatCount e = .ok count) : e.isLiteral := by
  unfold repeatCount at h
  split at h
  · rfl
  · rfl
  · cases h

theorem isLiteral_of_integerLeaf {format : IntegerFormat} {type : DataType}
    (h : integerLeaf function format (some e) = .ok type) : e.isLiteral := by
  unfold integerLeaf at h
  split at h
  next he => cases he
  next he => cases he; rfl
  next he => cases he; rfl
  next he =>
    cases he
    split at h
    · rfl
    · cases h

theorem isLiteral_of_otherLeaf {type : DataType} (h : otherLeaf function (some e) = .ok type) : e.isLiteral := by
  unfold otherLeaf at h
  split at h
  case h_17 => cases h
  all_goals
    rename_i he
    cases he
  -- what is left is a literal, a bound of lengths or an error
  all_goals
    first
    | rfl
    | obtain ⟨bounds, hb, -⟩ := ok_of_bind h
      exact isLiteral_of_lengthBounds hb
    | cases h

/-- A call that is a leaf mentions no copy. -/
theorem silent_of_leafType {type : DataType} (h : call.leafType = .ok type) : (Expr.call call).Silent := by
  intro ref hm
  obtain ⟨_, hn, h⟩ := ok_of_bind h
  have literal {e : Expr} (he : call.args = [e]) : e.isLiteral := by
    rw [he] at h
    obtain ⟨arg?, ha, h⟩ := ok_of_bind h
    cases ha
    split at h
    · obtain ⟨format, -, h⟩ := ok_of_bind h
      exact isLiteral_of_integerLeaf h
    · exact isLiteral_of_otherLeaf h
  obtain ⟨-, he⟩ | ⟨e, he, hm⟩ | ⟨name, e, hr, -⟩ := hm.of_call
  · cases literal he
  · cases ha : call.args with
    | nil => simp [ha] at he
    | cons own rest =>
      cases rest with
      | nil =>
        rw [ha, List.mem_singleton] at he
        exact silent_of_isLiteral (he ▸ literal ha) ref hm
      | cons other more =>
        rw [ha] at h
        cases h
  · unfold Call.Reads Call.named? at hr
    rw [checkNames_nil hn] at hr
    cases hr

theorem mem_of_checkNames {names : List String} (h : call.checkNames names = .ok ()) (hr : call.Reads name e) :
    name ∈ names := by
  unfold Call.checkNames at h
  split at h
  next => cases h
  next hn =>
    obtain ⟨front, back, he, -⟩ := List.lookup_eq_some_iff.mp hr
    have given : (name, e) ∈ call.named := he ▸ List.mem_append_right front List.mem_cons_self
    simpa using List.find?_eq_none.mp hn _ given

theorem silent_of_namedType {default type : DataType} (h : namedType call name default = .ok type)
    (hr : call.Reads name e) : e.Silent := by
  unfold namedType at h
  rw [hr] at h
  obtain ⟨inner, hc, h⟩ := ok_of_bind h
  unfold asCall at hc
  split at hc
  · cases hc
    exact silent_of_leafType h
  · cases hc

theorem isLiteral_of_namedNumber {default x : Binary64} (h : call.namedNumber name default = .ok x)
    (hr : call.Reads name e) : e.isLiteral := by
  unfold Call.namedNumber at h
  rw [hr] at h
  split at h
  next he => cases he; rfl
  next he => cases he; rfl
  next => cases h
  next he => cases he

theorem isLiteral_of_namedInt {default n : Int} (h : call.namedInt name default = .ok n) (hr : call.Reads name e) :
    e.isLiteral := by
  unfold Call.namedInt at h
  rw [hr] at h
  split at h
  next he => cases he; rfl
  next => cases h
  next he => cases he

theorem isLiteral_of_namedBool {default value : Bool} (h : call.namedBool name default = .ok value)
    (hr : call.Reads name e) : e.isLiteral := by
  unfold Call.namedBool at h
  rw [hr] at h
  split at h
  next he => cases he; rfl
  next => cases h
  next he => cases he

theorem silent_of_sizeRule {rule : Rule × DataType} (h : sizeRule call = .ok rule) (hr : call.Reads name e) :
    e.Silent := by
  obtain ⟨_, hn, h⟩ := ok_of_bind h
  obtain ⟨type, htype, h⟩ := ok_of_bind h
  obtain ⟨factor, hfactor, h⟩ := ok_of_bind h
  obtain ⟨offset, hoffset, -⟩ := ok_of_bind h
  have known := mem_of_checkNames hn hr
  simp only [List.mem_cons, List.not_mem_nil, or_false] at known
  obtain rfl | rfl | rfl := known
  · exact silent_of_namedType htype hr
  · exact silent_of_isLiteral (isLiteral_of_namedNumber hfactor hr)
  · exact silent_of_isLiteral (isLiteral_of_namedInt hoffset hr)

theorem silent_of_keyedDigestRule {rule : Rule × DataType} (h : keyedDigestRule call = .ok rule)
    (hr : call.Reads name e) : e.Silent := by
  obtain ⟨_, hn, h⟩ := ok_of_bind h
  have known := mem_of_checkNames hn hr
  simp only [List.mem_cons, List.not_mem_nil, or_false] at known
  dsimp only at h
  obtain rfl | rfl := known
  · unfold Call.Reads at hr
    rw [hr] at h
    cases e with
    | text name => exact silent_of_isLiteral rfl
    | _ => cases h
  · unfold Call.Reads at hr
    rw [hr] at h
    split at h
    all_goals
      obtain ⟨algorithm, -, h⟩ := ok_of_bind h
      obtain ⟨key, hk, -⟩ := ok_of_bind h
      exact silent_of_isLiteral (isLiteral_of_asBytes hk)

theorem silent_of_paddingRule {rule : Rule × DataType} (h : paddingRule call = .ok rule) (hr : call.Reads name e) :
    e.Silent := by
  obtain ⟨_, hn, h⟩ := ok_of_bind h
  have known := mem_of_checkNames hn hr
  simp only [List.mem_cons, List.not_mem_nil, or_false] at known
  dsimp only at h
  have others {modulo : Nat} (hne : name ≠ "modulo") (h : (do
      let pad ← namedType call "pad" (.raw (.only [0]))
      let once ← call.namedBool "once" false
      let factor ← call.namedNumber "factor" (.ofNat 1)
      let offset ← call.namedInt "offset" 0
      return (Rule.padding modulo once ⟨factor, offset⟩, pad)) = Except.ok rule) : e.Silent := by
    obtain ⟨pad, hpad, h⟩ := ok_of_bind h
    obtain ⟨once, honce, h⟩ := ok_of_bind h
    obtain ⟨factor, hfactor, h⟩ := ok_of_bind h
    obtain ⟨offset, hoffset, -⟩ := ok_of_bind h
    obtain rfl | rfl | rfl | rfl | rfl := known
    · exact absurd rfl hne
    · exact silent_of_namedType hpad hr
    · exact silent_of_isLiteral (isLiteral_of_namedBool honce hr)
    · exact silent_of_isLiteral (isLiteral_of_namedNumber hfactor hr)
    · exact silent_of_isLiteral (isLiteral_of_namedInt hoffset hr)
  by_cases hm : name = "modulo"
  · subst hm
    unfold Call.Reads at hr
    rw [hr] at h
    cases e with
    | int n => exact silent_of_isLiteral rfl
    | _ => cases h
  · split at h
    · obtain ⟨modulo, -, h⟩ := ok_of_bind h
      exact others hm h
    · cases h
    · cases h

/-- The named arguments that a relation reads mention no copy. -/
theorem silent_of_ruleOf? {rule : Rule × DataType} (h : ruleOf? call = some (.ok rule)) (hr : call.Reads name e) :
    e.Silent := by
  have nameless {x : Rule × DataType} (h : (do
      call.checkNames []
      return x) = Except.ok rule) : e.Silent := by
    obtain ⟨_, hn, -⟩ := ok_of_bind h
    cases mem_of_checkNames hn hr
  unfold ruleOf? at h
  split at h
  · exact silent_of_sizeRule (Option.some.inj h) hr
  · exact nameless (Option.some.inj h)
  · exact nameless (Option.some.inj h)
  · exact silent_of_keyedDigestRule (Option.some.inj h) hr
  · exact silent_of_paddingRule (Option.some.inj h) hr
  · cases h

/-- What a call mentions a copy of has been built when its variable is built. -/
theorem Call.Describes.mentions {refers : FieldKey → VarId → Prop} {stands : FieldKey → Variable → Prop}
    {symbol : String} {v : Variable} (h : call.Describes refers stands symbol v)
    (hm : Expr.Mentions Call.Reads (.call call) ref) : ∃ w, stands (ref.key symbol) w := by
  induction h with
  | data type => exact (silent_of_leafType type ref hm).elim
  | @relation call r refs rule targets _ =>
    obtain ⟨hv, -⟩ | ⟨e, he, inner⟩ | ⟨name, e, hr, inner⟩ := hm.of_call
    · unfold ruleOf? at rule
      rw [hv] at rule
      cases rule
    · cases targets.symm.trans (allReferences?_eq_none he inner.references?_eq_none)
    · exact (silent_of_ruleOf? rule hr ref inner).elim
  | @copy r own target scope? _ stands =>
    obtain ⟨-, ha⟩ | ⟨e, he, inner⟩ | ⟨name, e, hr, -⟩ := hm.of_call
    · obtain ⟨hs, hf⟩ := Expr.ref.inj (List.cons.inj ha).1
      obtain rfl : own = ref := Prod.ext hs hf
      exact ⟨target, stands⟩
    · cases List.mem_singleton.mp he
      cases inner
    · cases hr
  | choice _ ih | sequence _ ih =>
    obtain ⟨hv, -⟩ | ⟨e, he, inner⟩ | ⟨name, e, hr, -⟩ := hm.of_call
    · exact absurd hv (by simp)
    · obtain ⟨part, hp, rfl⟩ := List.mem_map.mp he
      exact ih part hp inner
    · cases hr
  | repetition _ hc names hd ih =>
    obtain ⟨hv, -⟩ | ⟨e, he, inner⟩ | ⟨name, e, hr, inner⟩ := hm.of_call
    · exact absurd hv (by simp)
    · rcases List.mem_cons.mp he with rfl | he
      · exact ih inner
      · cases List.mem_singleton.mp he
        exact (silent_of_isLiteral (isLiteral_of_repeatCount hc) ref inner).elim
    · cases List.mem_singleton.mp (mem_of_checkNames names hr)
      unfold Call.Reads Call.named? at hr
      rw [hr] at hd
      obtain ⟨bits, hb, -⟩ := ok_of_bind hd
      exact (silent_of_isLiteral (isLiteral_of_asBits hb) ref inner).elim

end Silent

end WireGrammar.Grammar
