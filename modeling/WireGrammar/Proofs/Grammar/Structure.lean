import Mathlib.Data.List.Nodup
import WireGrammar.Grammar.Symbols
import WireGrammar.Proofs.Variable.Checked
import WireGrammar.Proofs.Variable.Places

/-!
# What a grammar text builds

All fields that are built from one text are kept together. Each is a tree in its own place whose variables have passed
the checks of their construction (`InOrder`), and building one more keeps this so (`field_builds`). The symbols of a
text are made of such fields (`symbols_made`).
-/

namespace WireGrammar.Grammar

/-! ## References -/

/-- A field, and the symbol that it belongs to unless that is the symbol at hand. -/
abbrev Reference : Type :=
  Option String × String

/-- The field that a reference inside a symbol names. -/
def Reference.key (symbol : String) (ref : Reference) : FieldKey :=
  (ref.1.getD symbol, ref.2)

mutual

/-- The references that an argument is made of, if it is made of nothing else. -/
def Expr.references? : Expr → Option (List Reference)
  | .ref symbol? field => some [(symbol?, field)]
  | .list items => allReferences? items
  | _ => none

/-- The references that all arguments are made of, in their order. -/
def Expr.allReferences? : List Expr → Option (List Reference)
  | [] => some []
  | e :: rest => do return (← references? e) ++ (← allReferences? rest)

end

/-! ## Fields -/

/-- The fields built so far, by their identities. -/
abbrev Fields : Type :=
  List (VarId × Variable)

/-- What the rule of a relation that is built from a text says about its type and its targets. -/
def RuleHolds (fields : Fields) (r : Relation) : Prop :=
  match r.rule with
  | .size _ => r.type.constant? = none
  | .copy => ∃ target, (target.id, target) ∈ fields ∧ r.targets = [target.id] ∧
      Variable.copyType r.name target.bounds = .ok r.type
  | .internetChecksum => r.type = .uint .two
  | .crc32 => r.type = .uint .four
  | .keyedDigest algorithm _ => r.type = .rawExactly algorithm.digestBytes
  | .padding modulo _ _ => modulo ≠ 0

/-- What has been checked when a variable is built from a text. -/
def Checks (fields : Fields) : Variable → Prop
  | .data .. => True
  | .relation r => RuleHolds fields r ∧ r.type.bounds.2.isSome ∧ r.targets ≠ [] ∧ ∀ t ∈ r.targets, t.branch = []
  | .choice _ _ children | .sequence _ _ children => children ≠ []
  | .repetition _ _ _ count _ => count.least < count.stop ∧ count.stop ≤ RepeatCount.limit

/-- A tree in its place, of variables that have passed their checks. -/
structure Made (fields : Fields) (i : VarId) (v : Variable) : Prop where
  placed : v.Placed i
  checks : ∀ w ∈ v.preorder, Checks fields w

/-- Fields that are built, each a root with a tree in its place. -/
structure InOrder (fields : Fields) : Prop where
  nodup : (fields.map (·.1)).Nodup
  root : ∀ f ∈ fields, f.1.branch = []
  made : ∀ f ∈ fields, Made fields f.1 f.2
  /-- No field is copied inside of itself. -/
  apart : ∀ f ∈ fields, ∀ r, .relation r ∈ f.2.preorder → r.rule = .copy → f.1 ∉ r.targets

/-- A symbol that is made of fields, no two of them the same. -/
structure MadeOf (fields : Fields) (s : Symbol) : Prop where
  mem : ∀ f ∈ s.fields, (f.id, f.domain) ∈ fields
  nodup : (s.fields.map Field.id).Nodup

section Mono

variable {fields fields' : Fields}

theorem RuleHolds.mono {r : Relation} (h : RuleHolds fields r) (hs : fields ⊆ fields') : RuleHolds fields' r := by
  unfold RuleHolds at h ⊢
  split at h
  next => exact h
  next =>
    obtain ⟨target, ht, hr⟩ := h
    exact ⟨target, hs ht, hr⟩
  all_goals exact h

theorem Checks.mono {v : Variable} (h : Checks fields v) (hs : fields ⊆ fields') : Checks fields' v := by
  cases v with
  | relation r => exact ⟨h.1.mono hs, h.2⟩
  | data id name type scope => trivial
  | choice id name children => exact h
  | sequence id name children => exact h
  | repetition id name child count delimiter => exact h

theorem Made.mono {i : VarId} {v : Variable} (h : Made fields i v) (hs : fields ⊆ fields') : Made fields' i v :=
  ⟨h.placed, fun w hw => (h.checks w hw).mono hs⟩

end Mono

/-- A field that is put in front of those in order. -/
theorem InOrder.cons {fields : Fields} (h : InOrder fields) {id : VarId} {v : Variable} (hv : Made fields id v)
    (hr : id.branch = []) (hn : id ∉ fields.map (·.1)) : InOrder ((id, v) :: fields) := by
  have hs : fields ⊆ (id, v) :: fields := List.subset_cons_self _ _
  refine ⟨?_, List.forall_mem_cons.mpr ⟨hr, h.root⟩, List.forall_mem_cons.mpr ⟨hv.mono hs, fun f hf => ?_⟩,
    List.forall_mem_cons.mpr ⟨fun r hm hc ht => hn ?_, h.apart⟩⟩
  · rw [List.map_cons]
    exact List.nodup_cons.mpr ⟨hn, h.nodup⟩
  · exact (h.made f hf).mono hs
  · have rule := (hv.checks _ hm).1
    unfold RuleHolds at rule
    rw [hc] at rule
    obtain ⟨target, built, targets, -⟩ := rule
    rw [targets, List.mem_singleton] at ht
    exact List.mem_map.mpr ⟨_, built, ht.symm⟩

/-- Of lists that are related part by part, each part of the second belongs to one of the first. -/
theorem exists_of_mem_forall₂ {α β : Type} {R : α → β → Prop} {xs : List α} {ys : List β} (h : List.Forall₂ R xs ys)
    {y : β} (hy : y ∈ ys) : ∃ x ∈ xs, R x y := by
  induction h with
  | nil => cases hy
  | cons hr _ ih =>
    rcases List.mem_cons.mp hy with rfl | hy
    · exact ⟨_, List.mem_cons_self, hr⟩
    · obtain ⟨x, hx, hr⟩ := ih hy
      exact ⟨x, List.mem_cons_of_mem _ hx, hr⟩

/-! ## Computations of the builder -/

namespace Builder

variable {b : Builder} {underway : List FieldKey} {α β : Type}

/-- Fields are added in front, and none of those that are under construction. -/
def Adds (b : Builder) (underway : List FieldKey) (fields fields' : Fields) : Prop :=
  ∃ new, fields' = new ++ fields ∧ ∀ f ∈ new, ∀ key ∈ underway, b.idOf key ≠ .ok f.1

theorem Adds.refl (fields : Fields) : Adds b underway fields fields :=
  ⟨[], rfl, by simp⟩

theorem Adds.trans {x y z : Fields} (h₁ : Adds b underway x y) (h₂ : Adds b underway y z) : Adds b underway x z := by
  obtain ⟨new, rfl, hn⟩ := h₁
  obtain ⟨newer, rfl, hm⟩ := h₂
  exact ⟨newer ++ new, (List.append_assoc _ _ _).symm, fun f hf => (List.mem_append.mp hf).elim (hm f) (hn f)⟩

theorem Adds.subset {fields fields' : Fields} (h : Adds b underway fields fields') : fields ⊆ fields' := by
  obtain ⟨new, rfl, -⟩ := h
  exact List.subset_append_right _ _

/-- Whatever is built, starting with fields in order, leaves fields in order behind, and satisfies a condition. -/
def Builds (b : Builder) (underway : List FieldKey) (fields : Fields) (m : Build α) (P : α → Fields → Prop) : Prop :=
  InOrder fields → ∀ x fields', m.run fields = .ok (x, fields') →
    InOrder fields' ∧ Adds b underway fields fields' ∧ P x fields'

section Builds

variable {fields : Fields} {P : α → Fields → Prop} {Q : β → Fields → Prop}

theorem Builds.pure {x : α} (h : P x fields) : Builds b underway fields (pure x) P := by
  intro ho y fields' hy
  cases hy
  exact ⟨ho, .refl _, h⟩

theorem Builds.throw (e : GrammarError) : Builds b underway fields (throw e : Build α) P := by
  intro ho y fields' hy
  cases hy

theorem Builds.lift {e : Except GrammarError α} (h : ∀ x, e = .ok x → P x fields) :
    Builds b underway fields (liftM e) P := by
  intro ho y fields' hy
  cases e with
  | error e => cases hy
  | ok x =>
    cases hy
    exact ⟨ho, .refl _, h _ rfl⟩

theorem Builds.lifted {α : Type} (m : Except GrammarError α) :
    Builds b underway fields (liftM m) fun x fields' => m = .ok x ∧ fields' = fields :=
  Builds.lift fun _ h => ⟨h, rfl⟩

theorem Builds.fault (function : String) (e : ArgumentFault) :
    Builds b underway fields (liftM (fault function e : Except GrammarError α)) P :=
  Builds.throw _

theorem Builds.ofBuilt {built : Built α} (h : ∀ x, built = .ok x → P x fields) :
    Builds b underway fields (Build.ofBuilt built) P := by
  cases built with
  | error e => exact Builds.throw _
  | ok x => exact Builds.pure (h x rfl)

theorem Builds.bind {m : Build α} {f : α → Build β} (h : Builds b underway fields m P)
    (hf : ∀ x fields', P x fields' → Adds b underway fields fields' → Builds b underway fields' (f x) Q) :
    Builds b underway fields (m >>= f) Q := by
  intro ho y last hy
  rw [StateT.run_bind] at hy
  cases hm : m.run fields with
  | error e =>
    rw [hm] at hy
    cases hy
  | ok p =>
    obtain ⟨x, fields'⟩ := p
    rw [hm] at hy
    obtain ⟨ho', ha, hp⟩ := h ho x fields' hm
    obtain ⟨hl, ha', hq⟩ := hf x fields' hp ha ho' y last hy
    exact ⟨hl, ha.trans ha', hq⟩

theorem Builds.map {m : Build α} {f : α → β} (h : Builds b underway fields m P)
    (hf : ∀ x fields', P x fields' → Q (f x) fields') : Builds b underway fields (f <$> m) Q := by
  rw [map_eq_pure_bind]
  exact h.bind fun x fields' hx _ => Builds.pure (hf x fields' hx)

theorem Builds.mono {m : Build α} {P' : α → Fields → Prop} (h : Builds b underway fields m P)
    (hp : ∀ x fields', P x fields' → P' x fields') : Builds b underway fields m P' := by
  intro ho x fields' hx
  obtain ⟨ho', ha, hx⟩ := h ho x fields' hx
  exact ⟨ho', ha, hp x fields' hx⟩

theorem Builds.and {m : Build α} {P' : α → Fields → Prop} (h : Builds b underway fields m P)
    (h' : Builds b underway fields m P') : Builds b underway fields m fun x fields' => P x fields' ∧ P' x fields' := by
  intro ho x fields' hx
  obtain ⟨ho', ha, hp⟩ := h ho x fields' hx
  exact ⟨ho', ha, hp, (h' ho x fields' hx).2.2⟩

end Builds

/-! ## Identities of fields -/

theorem ok_of_bind {ε : Type} {x : Except ε α} {f : α → Except ε β} {y : β} (h : x >>= f = .ok y) :
    ∃ a, x = .ok a ∧ f a = .ok y := by
  cases x with
  | error e => cases h
  | ok a => exact ⟨a, rfl, h⟩

theorem ok_of_toOption {ε : Type} {x : Except ε α} {a : α} (h : x.toOption = some a) : x = .ok a := by
  cases x with
  | error e => cases h
  | ok a => cases h; rfl

theorem idOf_eq_ok {key : FieldKey} {id : VarId} (h : b.idOf key = .ok id) :
    ∃ index, b.keys[index]? = some key ∧ id = .ofRoot index := by
  unfold idOf at h
  split at h
  next index hi =>
    cases h
    obtain ⟨hl, he, -⟩ := List.idxOf?_eq_some_iff.mp hi
    exact ⟨index, by rw [List.getElem?_eq_getElem hl, he], rfl⟩
  next => cases h

/-- Fields of different names have different identities. -/
theorem idOf_injective {key key' : FieldKey} {id : VarId} (h : b.idOf key = .ok id) (h' : b.idOf key' = .ok id) :
    key = key' := by
  obtain ⟨index, hi, rfl⟩ := idOf_eq_ok h
  obtain ⟨index', hi', he⟩ := idOf_eq_ok h'
  cases he
  exact Option.some.inj (hi.symm.trans hi')

theorem idOf_root {key : FieldKey} {id : VarId} (h : b.idOf key = .ok id) : id.branch = [] := by
  obtain ⟨index, -, rfl⟩ := idOf_eq_ok h
  rfl

/-- The targets of a relation are the fields that its arguments name. -/
theorem targets_refer (symbol function : String) :
    (∀ e targets, b.targetsOf symbol function e = .ok targets → ∃ refs, e.references? = some refs ∧
      List.Forall₂ (fun ref target => b.idOf (Reference.key symbol ref) = .ok target) refs targets) ∧
    ∀ es targets, b.targetsOfAll symbol function es = .ok targets → ∃ refs, Expr.allReferences? es = some refs ∧
      List.Forall₂ (fun ref target => b.idOf (Reference.key symbol ref) = .ok target) refs targets := by
  refine targetsOf.mutual_induct _ _ ?_ ?_ ?_ ?_ ?_
  · intro symbol? field targets h
    obtain ⟨id, hid, h⟩ := ok_of_bind (by rwa [targetsOf] at h)
    cases h
    exact ⟨[(symbol?, field)], by rw [Expr.references?], .cons hid .nil⟩
  · intro items ih targets h
    obtain ⟨refs, hr, ht⟩ := ih targets (by rwa [targetsOf] at h)
    exact ⟨refs, by rw [Expr.references?, hr], ht⟩
  · intro e hr hl targets h
    rw [targetsOf] at h
    · cases h
    · exact hr
    · exact hl
  · intro targets h
    rw [targetsOfAll] at h
    cases h
    exact ⟨[], by rw [Expr.allReferences?], .nil⟩
  · intro e rest he hrest targets h
    rw [targetsOfAll] at h
    obtain ⟨front, hf, h⟩ := ok_of_bind h
    obtain ⟨back, hb, h⟩ := ok_of_bind h
    cases h
    obtain ⟨refs, hr, ht⟩ := he front hf
    obtain ⟨more, hm, ht'⟩ := hrest back hb
    exact ⟨refs ++ more, by rw [Expr.allReferences?, hr, hm]; rfl, List.rel_append ht ht'⟩

theorem targets_root {symbol function : String} {es : List Expr} {targets : List VarId}
    (h : b.targetsOfAll symbol function es = .ok targets) : ∀ t ∈ targets, t.branch = [] := by
  obtain ⟨refs, -, named⟩ := (targets_refer symbol function).2 es targets h
  intro t ht
  obtain ⟨ref, -, hid⟩ := exists_of_mem_forall₂ named ht
  exact idOf_root hid

/-! ## Relations and nodes -/

/-- What a function of the text says about the type of the relation that it makes. -/
def RuleTyped : Rule × DataType → Prop
  | (.internetChecksum, type) => type = .uint .two
  | (.crc32, type) => type = .uint .four
  | (.keyedDigest algorithm _, type) => type = .rawExactly algorithm.digestBytes
  | (.copy, _) => False
  | (.size _, _) | (.padding .., _) => True

theorem keyedDigestRule_typed {call : Call} {rule : Rule × DataType} (h : keyedDigestRule call = .ok rule) :
    RuleTyped rule := by
  obtain ⟨_, -, h⟩ := ok_of_bind h
  dsimp only at h
  split at h <;> obtain ⟨algorithm, -, h⟩ := ok_of_bind h
  all_goals
    split at h <;> obtain ⟨key, -, h⟩ := ok_of_bind h
    all_goals
      cases h
      rfl

theorem paddingRule_typed {call : Call} {rule : Rule × DataType} (h : paddingRule call = .ok rule) :
    RuleTyped rule := by
  obtain ⟨_, -, h⟩ := ok_of_bind h
  dsimp only at h
  split at h <;> obtain ⟨modulo, -, h⟩ := ok_of_bind h
  all_goals
    obtain ⟨pad, -, h⟩ := ok_of_bind h
    obtain ⟨once, -, h⟩ := ok_of_bind h
    obtain ⟨factor, -, h⟩ := ok_of_bind h
    obtain ⟨offset, -, h⟩ := ok_of_bind h
    cases h
    trivial

theorem ruleOf?_typed {call : Call} {made : Except GrammarError (Rule × DataType)} (h : ruleOf? call = some made)
    {rule : Rule × DataType} (hr : made = .ok rule) : RuleTyped rule := by
  unfold ruleOf? at h
  split at h
  · cases h
    obtain ⟨_, -, hr⟩ := ok_of_bind hr
    obtain ⟨type, -, hr⟩ := ok_of_bind hr
    obtain ⟨factor, -, hr⟩ := ok_of_bind hr
    obtain ⟨offset, -, hr⟩ := ok_of_bind hr
    cases hr
    trivial
  · cases h
    obtain ⟨_, -, hr⟩ := ok_of_bind hr
    cases hr
    rfl
  · cases h
    obtain ⟨_, -, hr⟩ := ok_of_bind hr
    cases hr
    rfl
  · cases h
    exact keyedDigestRule_typed hr
  · cases h
    exact paddingRule_typed hr
  · cases h

theorem checkRule_holds {fields : Fields} {r : Relation} (hc : Variable.checkRule r = .ok ())
    (hr : RuleTyped (r.rule, r.type)) : RuleHolds fields r := by
  obtain ⟨id, name, rule, targets, type⟩ := r
  cases rule with
  | size scale =>
    change type.constant? = none
    unfold Variable.checkRule at hc
    dsimp only at hc
    split at hc
    · cases hc
    · split at hc
      · cases hc
      next h => simpa using h
  | copy => exact hr.elim
  | internetChecksum => exact hr
  | crc32 => exact hr
  | keyedDigest algorithm key => exact hr
  | padding modulo once scale =>
    change modulo ≠ 0
    unfold Variable.checkRule at hc
    dsimp only at hc
    split at hc
    · cases hc
    · split at hc
      · cases hc
      next h => exact fun h' => h (Or.inl h')

section Nodes

variable {fields : Fields} {symbol : String} {id : VarId} {name : String}

theorem made_relation {r : Relation} (hid : r.id = id) (h : Checks fields (.relation r)) :
    Made fields id (.relation r) := by
  refine ⟨hid, fun w hw => ?_⟩
  rw [Variable.preorder, List.mem_singleton] at hw
  exact hw ▸ h

theorem relation_builds {call : Call} {made : Except GrammarError (Rule × DataType)}
    (hm : ruleOf? call = some made) :
    Builds b underway fields (b.relation symbol id name call made) fun v fields' => Made fields' id v := by
  refine Builds.bind (P := fun targets _ => ∀ t ∈ targets, t.branch = [])
    (Builds.lift fun targets h => targets_root h) fun targets fields ht _ => ?_
  refine Builds.bind (P := fun rule _ => RuleTyped rule) (Builds.lift fun rule h => ruleOf?_typed hm h)
    fun rule fields hr _ => ?_
  obtain ⟨rule, type⟩ := rule
  refine Builds.ofBuilt fun v hv => ?_
  obtain ⟨rfl, hn, hb, hc⟩ := Variable.mkRelation_eq_ok hv
  exact made_relation rfl ⟨checkRule_holds hc hr, hb, hn, ht⟩

theorem copy_builds {target : FieldKey → Build Variable} (call : Call)
    (ht : ∀ key fields, Builds b underway fields (target key) fun v fields' =>
      (v.id, v) ∈ fields' ∧ v.id.branch = []) :
    Builds b underway fields (b.copy target symbol id name call) fun v fields' => Made fields' id v := by
  have any {γ : Type} {m : Except GrammarError γ} {fields : Fields} :
      Builds b underway fields (liftM m) fun _ _ => True := Builds.lift fun _ _ => trivial
  have made {v : Variable} {fields : Fields} (hv : (v.id, v) ∈ fields ∧ v.id.branch = []) :
      Builds b underway fields (Build.ofBuilt (Variable.mkCopy id name v)) fun v fields' => Made fields' id v := by
    refine Builds.ofBuilt fun w hw => ?_
    obtain ⟨type, htype, hw⟩ := ok_of_bind hw
    obtain ⟨rfl, hn, hb, hc⟩ := Variable.mkRelation_eq_ok hw
    exact made_relation rfl ⟨⟨v, hv.1, rfl, htype⟩, hb, hn, by simpa using hv.2⟩
  unfold copy
  refine any.bind fun _ fields _ _ => ?_
  split
  next symbol? field _ =>
    cases symbol? with
    | none => exact (ht _ _).bind fun v fields hv _ => made hv
    | some other =>
      refine Builds.bind (P := fun _ _ => True) (any.map fun _ _ _ => trivial) fun name fields _ _ => ?_
      exact (ht _ _).bind fun v fields hv _ => made hv
  next => exact Builds.fault _ _

theorem made_node {children : List Variable} (hc : ∀ c ∈ children, ∀ w ∈ c.preorder, Checks fields w) {v : Variable}
    (hp : v.Placed id) (hv : Checks fields v) (hs : v.preorder = v :: Variable.preorderAll children) :
    Made fields id v := by
  refine ⟨hp, fun w hw => ?_⟩
  rw [hs, Variable.preorderAll_eq] at hw
  rcases List.mem_cons.mp hw with rfl | hw
  · exact hv
  · obtain ⟨c, hcm, hw⟩ := List.mem_flatMap.mp hw
    exact hc c hcm w hw

theorem mkChoice_eq_ok {children : List Variable} {v : Variable} (h : Variable.mkChoice id name children = .ok v) :
    v = .choice id name children ∧ children ≠ [] := by
  unfold Variable.mkChoice at h
  split at h
  next => cases h
  next hc =>
    cases h
    exact ⟨rfl, by simpa using hc⟩

theorem mkSequence_eq_ok {children : List Variable} {v : Variable}
    (h : Variable.mkSequence id name children = .ok v) : v = .sequence id name children ∧ children ≠ [] := by
  unfold Variable.mkSequence at h
  split at h
  next => cases h
  next hc =>
    cases h
    exact ⟨rfl, by simpa using hc⟩

theorem mkRepetition_eq_ok {child : Variable} {count : RepeatCount} {delimiter : Option BitString} {v : Variable}
    (h : Variable.mkRepetition id name child count delimiter = .ok v) :
    v = .repetition id name child count delimiter ∧ count.least < count.stop ∧ count.stop ≤ RepeatCount.limit := by
  unfold Variable.mkRepetition at h
  split at h
  next => cases h
  next hl =>
    split at h
    next => cases h
    next hs =>
      cases h
      exact ⟨rfl, by omega, by omega⟩

/-- A function that makes relations is none of those that make nodes and copies. -/
theorem variableOf_relation {target : FieldKey → Build Variable} {call : Call}
    {made : Except GrammarError (Rule × DataType)} (h : ruleOf? call = some made) :
    b.variableOf target symbol id name call = b.relation symbol id name call made := by
  obtain ⟨function, args, named, scope?⟩ := call
  rw [variableOf]
  · rw [h]
  all_goals
    rintro rfl
    cases h

theorem variableOf_leaf {target : FieldKey → Build Variable} {call : Call} (h : ruleOf? call = none)
    (ha : call.function ≠ "alt") (hg : call.function ≠ "agg") (hr : call.function ≠ "repeat")
    (hv : call.function ≠ "value") :
    b.variableOf target symbol id name call = do
      return .data id name (← call.leafType) (call.scope?.getD .ephemeral) := by
  obtain ⟨function, args, named, scope?⟩ := call
  rw [variableOf]
  · rw [h]
  all_goals assumption

/-- The variable that a call describes stands in its place and has passed its checks. -/
theorem variableOf_builds {target : FieldKey → Build Variable} (symbol : String)
    (ht : ∀ key fields, Builds b underway fields (target key) fun v fields' =>
      (v.id, v) ∈ fields' ∧ v.id.branch = []) (id : VarId) (name : String) (call : Call) (fields : Fields) :
    Builds b underway fields (b.variableOf target symbol id name call) fun v fields' => Made fields' id v := by
  have any {γ : Type} {m : Except GrammarError γ} {fields : Fields} :
      Builds b underway fields (liftM m) fun _ _ => True := Builds.lift fun _ _ => trivial
  refine (variableOf.mutual_induct
    (fun id name call => ∀ fields, Builds b underway fields (b.variableOf target symbol id name call)
      fun v fields' => Made fields' id v)
    (fun id name args => ∀ fields, Builds b underway fields (b.repeatedOf target symbol id name args)
      fun p fields' => Made fields' id p.1)
    (fun id name function e => ∀ fields, Builds b underway fields (b.childOf target symbol id name function e)
      fun v fields' => Made fields' id v)
    (fun id name function index es => ∀ fields, Builds b underway fields
      (b.childrenOf target symbol id name function index es) fun vs fields' =>
        Variable.PlacedAll vs id index ∧ ∀ c ∈ vs, ∀ w ∈ c.preorder, Checks fields' w)
    ?alt ?agg ?repeated ?value ?relation ?leaf ?call ?noCall ?two ?notTwo ?nil ?cons).1 id name call fields
  case alt =>
    intro id name args named scope? ih fields
    rw [variableOf]
    refine any.bind fun _ fields _ _ => (ih fields).bind fun vs fields hvs _ => Builds.ofBuilt fun v hv => ?_
    obtain ⟨rfl, hn⟩ := mkChoice_eq_ok hv
    exact made_node hvs.2 ⟨rfl, hvs.1⟩ hn rfl
  case agg =>
    intro id name args named scope? ih fields
    rw [variableOf]
    refine any.bind fun _ fields _ _ => (ih fields).bind fun vs fields hvs _ => Builds.ofBuilt fun v hv => ?_
    obtain ⟨rfl, hn⟩ := mkSequence_eq_ok hv
    exact made_node hvs.2 ⟨rfl, hvs.1⟩ hn rfl
  case repeated =>
    intro id name args named scope? ih fields
    have made {delimiter : Option BitString} {child : Variable} {count : RepeatCount} {fields : Fields}
        (hc : Made fields (id.child 0) child) :
        Builds b underway fields (Build.ofBuilt (Variable.mkRepetition id name child count delimiter))
          fun v fields' => Made fields' id v := by
      refine Builds.ofBuilt fun v hv => ?_
      obtain ⟨rfl, hn⟩ := mkRepetition_eq_ok hv
      have checks : ∀ c ∈ [child], ∀ w ∈ c.preorder, Checks fields w := by simpa using hc.checks
      exact made_node checks ⟨rfl, hc.placed⟩ hn
        (by rw [Variable.preorder, Variable.preorderAll, Variable.preorderAll, List.append_nil])
    rw [variableOf]
    refine any.bind fun _ fields _ _ => (ih fields).bind fun p fields hp _ => ?_
    obtain ⟨child, counts⟩ := p
    refine any.bind fun count fields' _ ha => ?_
    have hc : Made fields' (id.child 0) child := hp.mono ha.subset
    dsimp only
    split
    next e =>
      refine Builds.bind (P := fun _ _ => True) (any.map fun _ _ _ => trivial) fun d fields _ ha => ?_
      exact made (hc.mono ha.subset)
    next => exact made hc
  case value =>
    intro id name args named scope? fields
    rw [variableOf]
    exact copy_builds _ ht
  case relation =>
    intro id name function args named scope? call made hm ha hg hr hv fields
    rw [variableOf_relation hm]
    exact relation_builds hm
  case leaf =>
    intro id name function args named scope? call hm ha hg hr hv fields
    rw [variableOf_leaf hm ha hg hr hv]
    refine any.bind fun type fields _ _ => Builds.pure ⟨rfl, fun w hw => ?_⟩
    rw [Variable.preorder, List.mem_singleton] at hw
    exact hw ▸ trivial
  case call =>
    intro id name function call ih fields
    rw [childOf]
    exact ih fields
  case noCall =>
    intro id name function e he fields
    rw [childOf]
    · exact Builds.fault _ _
    · exact he
  case two =>
    intro id name child counts ih fields
    rw [repeatedOf]
    exact (ih fields).bind fun v fields hv _ => Builds.pure hv
  case notTwo =>
    intro es id name he fields
    rw [repeatedOf]
    · exact Builds.fault _ _
    · exact he
  case nil =>
    intro id name function index fields
    rw [childrenOf]
    exact Builds.pure ⟨trivial, by simp⟩
  case cons =>
    intro id name function index e rest he hrest fields
    rw [childrenOf]
    refine (he fields).bind fun v fields hv _ => (hrest fields).bind fun vs fields' hvs ha => Builds.pure ⟨?_, ?_⟩
    · exact ⟨hv.placed, hvs.1⟩
    · exact List.forall_mem_cons.mpr ⟨(hv.mono ha.subset).checks, hvs.2⟩

end Nodes

/-! ## Fields and symbols -/

section Construction

variable (b : Builder)

/-- The variable of a field that may be built already, or be under construction and depend on itself. -/
def fieldOr (underway : List FieldKey) (key : FieldKey) (construct : VarId → Build Variable) : Build Variable := do
  let id ← b.idOf key
  match (← get).lookup id with
  | some v => return v
  | none =>
    if underway.contains key then fault "value" (.dependsOnItself key.1 key.2)
    else construct id

/-- The variable of a field that is declared, which is kept. -/
def construct (target : FieldKey → Build Variable) (key : FieldKey) (id : VarId) : Build Variable := do
  let decl ← b.declOf key.1
  match decl.fields.find? (·.name == key.2) with
  | none => throw (.unknownReference (key.1 ++ "." ++ key.2))
  | some f =>
    let v ← b.variableOf target key.1 id key.2 f.domain
    modify ((id, v) :: ·)
    return v

theorem field_zero (underway : List FieldKey) (key : FieldKey) : b.field 0 underway key =
    b.fieldOr underway key fun _ => fault "value" (.dependsOnItself key.1 key.2) := by
  unfold field
  rfl

theorem field_succ (depth : Nat) (underway : List FieldKey) (key : FieldKey) : b.field (depth + 1) underway key =
    b.fieldOr underway key (b.construct (b.field depth (key :: underway)) key) := by
  unfold field
  rfl

end Construction

/-- A symbol of the declarations has the field. -/
def Declares (decls : List SymbolDecl) (key : FieldKey) (f : FieldDecl) : Prop :=
  ∃ decl ∈ decls, decl.name = key.1 ∧ f ∈ decl.fields ∧ f.name = key.2

theorem declOf_eq_ok {name : String} {decl : SymbolDecl} (h : b.declOf name = .ok decl) :
    decl ∈ b.decls ∧ decl.name = name := by
  unfold declOf at h
  split at h
  next found =>
    cases h
    exact ⟨List.mem_of_find?_eq_some found, by simpa using List.find?_some found⟩
  next => cases h

/-- What the builder finds for a name is declared. -/
theorem declares_of_find? {key : FieldKey} {decl : SymbolDecl} {f : FieldDecl} (hd : b.declOf key.1 = .ok decl)
    (hf : decl.fields.find? (·.name == key.2) = some f) : Declares b.decls key f := by
  obtain ⟨declared, named⟩ := declOf_eq_ok hd
  exact ⟨decl, declared, named, List.mem_of_find?_eq_some hf, by simpa using List.find?_some hf⟩

theorem get_builds {fields : Fields} :
    Builds b underway fields (get : Build Fields) fun x fields' => x = fields ∧ fields' = fields := by
  intro ho x fields' hx
  cases hx
  exact ⟨ho, .refl _, rfl, rfl⟩

/-- A field that is built while it is under construction is added only at the end. -/
theorem add_builds {key : FieldKey} {id : VarId} {fields : Fields} {m : Build Variable}
    (hm : Builds b (key :: underway) fields m fun v fields' => Made fields' id v) (hid : b.idOf key = .ok id)
    (hu : key ∉ underway) (hn : id ∉ fields.map (·.1)) :
    Builds b underway fields (do
      let v ← m
      modify ((id, v) :: ·)
      return v) fun v fields' => (v.id, v) ∈ fields' ∧ v.id.branch = [] ∧ b.idOf key = .ok v.id := by
  intro ho x last hx
  rw [StateT.run_bind] at hx
  cases hrun : m.run fields with
  | error e =>
    rw [hrun] at hx
    cases hx
  | ok p =>
    obtain ⟨v, fields'⟩ := p
    rw [hrun] at hx
    cases hx
    obtain ⟨ho', ⟨new, rfl, hnew⟩, hv⟩ := hm ho v _ hrun
    have fresh : id ∉ (new ++ fields).map (·.1) := by
      rw [List.map_append, List.mem_append, not_or]
      refine ⟨fun h => ?_, hn⟩
      obtain ⟨f, hf, he⟩ := List.mem_map.mp h
      exact hnew f hf key List.mem_cons_self (he ▸ hid)
    refine ⟨ho'.cons hv (idOf_root hid) fresh, ⟨(id, v) :: new, rfl, ?_⟩, ?_⟩
    · refine List.forall_mem_cons.mpr ⟨fun key' hk' he => ?_, fun f hf key' hk' => ?_⟩
      · exact hu (idOf_injective he hid ▸ hk')
      · exact hnew f hf key' (List.mem_cons_of_mem _ hk')
    · change (v.id, v) ∈ (id, v) :: (new ++ fields) ∧ _ ∧ _
      rw [hv.placed.id_eq]
      exact ⟨List.mem_cons_self, idOf_root hid, hid⟩

/-- A field that has been built is found again, otherwise it is constructed now. -/
theorem fieldOr_builds {key : FieldKey} {fields : Fields} {P : Variable → Fields → Prop}
    {make : VarId → Build Variable}
    (hk : ∀ v, (v.id, v) ∈ fields ∧ v.id.branch = [] ∧ b.idOf key = .ok v.id → P v fields)
    (hm : ∀ id, b.idOf key = .ok id → key ∉ underway → id ∉ fields.map (·.1) →
      Builds b underway fields (make id) P) :
    Builds b underway fields (b.fieldOr underway key make) P := by
  intro ho
  refine Builds.bind (P := fun id fields' => b.idOf key = .ok id ∧ fields' = fields)
    (Builds.lifted _) (fun id _ h _ => ?_) ho
  obtain ⟨hid, rfl⟩ := h
  refine get_builds.bind fun x _ h _ => ?_
  obtain ⟨rfl, rfl⟩ := h
  split
  next v hl =>
    obtain ⟨front, back, he, -⟩ := List.lookup_eq_some_iff.mp hl
    have hm := he ▸ List.mem_append_right front List.mem_cons_self
    have hv := (ho.made _ hm).placed.id_eq
    exact Builds.pure (hk v (hv ▸ ⟨hm, ho.root _ hm, hid⟩))
  next hl =>
    split
    next => exact Builds.fault _ _
    next hu =>
      refine hm id hid (by simpa using hu) fun hm => ?_
      obtain ⟨e, he, rfl⟩ := List.mem_map.mp hm
      have := List.lookup_eq_none_iff.mp hl e he
      simp at this

/-- What is constructed for a field is what its declaration says. -/
theorem construct_builds {target : FieldKey → Build Variable} {key : FieldKey} {id : VarId} {fields : Fields}
    {P : Variable → Fields → Prop}
    (hf : ∀ f, Declares b.decls key f → Builds b underway fields (do
      let v ← b.variableOf target key.1 id key.2 f.domain
      modify ((id, v) :: ·)
      return v) P) :
    Builds b underway fields (b.construct target key id) P := by
  refine Builds.bind (P := fun decl fields' => b.declOf key.1 = .ok decl ∧ fields' = fields)
    (Builds.lifted _) fun decl _ h _ => ?_
  obtain ⟨hd, rfl⟩ := h
  split
  next => exact Builds.throw _
  next f hfound => exact hf f (declares_of_find? hd hfound)

/-- A field is built only once, and what is built for it stays. -/
theorem field_builds (depth : Nat) (underway : List FieldKey) (key : FieldKey) (fields : Fields) :
    Builds b underway fields (b.field depth underway key) fun v fields' =>
      (v.id, v) ∈ fields' ∧ v.id.branch = [] ∧ b.idOf key = .ok v.id := by
  induction depth generalizing underway key fields with
  | zero =>
    rw [field_zero]
    exact fieldOr_builds (fun v h => h) fun _ _ _ _ => Builds.fault _ _
  | succ depth ih =>
    rw [field_succ]
    refine fieldOr_builds (fun v h => h) fun id hid hu hn => construct_builds fun f _ => ?_
    refine add_builds (variableOf_builds key.1 (fun key' fields => ?_) id key.2 f.domain _) hid hu hn
    exact (ih (key :: underway) key' fields).mono fun v fields' h => ⟨h.1, h.2.1⟩

/-- A list of parts, of which each stays what it is when others are built. -/
theorem mapM_builds {γ : Type} {P : α → Fields → Prop} (mono : ∀ {x fields fields'}, P x fields → fields ⊆ fields' →
    P x fields') {make : γ → Build α} (h : ∀ x fields, Builds b underway fields (make x) P) (xs : List γ)
    (fields : Fields) : Builds b underway fields (xs.mapM make) fun ys fields' => ∀ y ∈ ys, P y fields' := by
  induction xs generalizing fields with
  | nil => exact Builds.pure (by simp)
  | cons x rest ih =>
    rw [List.mapM_cons]
    refine (h x fields).bind fun y fields hy _ => (ih fields).bind fun ys fields' hys ha => Builds.pure ?_
    exact List.forall_mem_cons.mpr ⟨mono hy ha.subset, hys⟩

theorem nodup_of_firstRepeated? {seen names : List String} (h : Symbol.firstRepeated? seen names = none) :
    names.Nodup ∧ ∀ name ∈ names, name ∉ seen := by
  induction names generalizing seen with
  | nil => simp
  | cons name rest ih =>
    rw [Symbol.firstRepeated?] at h
    split at h
    next => cases h
    next hs =>
      obtain ⟨hn, hr⟩ := ih h
      refine ⟨List.nodup_cons.mpr ⟨fun hm => hr name hm List.mem_cons_self, hn⟩, ?_⟩
      refine List.forall_mem_cons.mpr ⟨by simpa using hs, fun other ho hm => hr other ho (List.mem_cons_of_mem _ hm)⟩

theorem symbol_builds (decl : SymbolDecl) (fields : Fields) :
    Builds b [] fields (b.symbol decl) fun s fields' => MadeOf fields' s := by
  refine Builds.bind (mapM_builds
    (P := fun (f : Field) fields' => (f.id, f.domain) ∈ fields' ∧ b.idOf (decl.name, f.name) = .ok f.id)
    (fun h hs => ⟨hs h.1, h.2⟩) (fun f fields => ?_) decl.fields fields) fun made fields' hm _ => ?_
  · exact (field_builds _ [] _ fields).bind fun v fields' hv _ => Builds.pure ⟨hv.1, hv.2.2⟩
  · refine Builds.ofBuilt fun s hs => ?_
    unfold Symbol.build at hs
    split at hs
    next => cases hs
    next =>
      split at hs
      next => cases hs
      next hn =>
        cases hs
        refine ⟨fun f hf => (hm f hf).1, List.pairwise_map.mpr ?_⟩
        refine (List.pairwise_map.mp (nodup_of_firstRepeated? hn).1).imp_of_mem fun {f g} hf hg hne he => hne ?_
        have same := (hm f hf).2
        rw [he] at same
        exact (Prod.mk.inj (idOf_injective same (hm g hg).2)).2

end Builder

/-- The symbols of declarations are built one after the other, starting without fields. -/
theorem run_of_symbolsOf {decls : List SymbolDecl} {symbols : List Symbol} (h : symbolsOf decls = .ok symbols) :
    ∃ b fields, Builder.ofDecls decls = .ok b ∧ (decls.mapM b.symbol).run [] = .ok (symbols, fields) := by
  obtain ⟨b, hb, h⟩ := Builder.ok_of_bind h
  cases hrun : (decls.mapM b.symbol).run [] with
  | error e =>
    rw [StateT.run'_eq, hrun] at h
    cases h
  | ok p =>
    rw [StateT.run'_eq, hrun] at h
    cases h
    exact ⟨b, p.2, hb, hrun⟩

theorem InOrder.nil : InOrder [] :=
  ⟨List.nodup_nil, by simp, by simp, by simp⟩

/-- The symbols of a text are made of fields in order. -/
theorem symbols_made {text : String} {symbols : List Symbol} (h : Grammar.symbols text = .ok symbols) :
    ∃ fields, InOrder fields ∧ ∀ s ∈ symbols, MadeOf fields s := by
  obtain ⟨decls, -, h⟩ := Builder.ok_of_bind h
  obtain ⟨b, fields, -, hrun⟩ := run_of_symbolsOf h
  obtain ⟨ho, -, hs⟩ := Builder.mapM_builds (P := fun s fields => MadeOf fields s)
    (fun h hs => ⟨fun f hf => hs (h.mem f hf), h.nodup⟩) (fun decl fields => Builder.symbol_builds decl fields)
    decls [] .nil symbols fields hrun
  exact ⟨fields, ho, hs⟩

end WireGrammar.Grammar
