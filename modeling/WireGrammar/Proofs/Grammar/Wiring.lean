import WireGrammar.Proofs.Grammar.Layout

/-!
# How a text is wired

Which variable belongs to which call of a text, said without the order in which variables are built: a relation has the
identities of the fields that its arguments name as targets, and the type of a copy comes from the bounds of the field
that it names (`Call.Describes`). Everything that is built belongs so to its call, where copies are made of fields that
were built before them (`Layered`, `variableOf_describes`, `field_layered`). In the end a field that is built is the
field of its name in its symbol, so this holds of the symbols themselves (`identities_wired`).
-/

namespace WireGrammar.Grammar

/-! ## Calls and variables -/

/--
A call of a symbol describes a variable, where `refers` says which identity a field has that a relation refers to, and
`stands` which variable a field is that is copied.
-/
inductive Call.Describes (refers : FieldKey → VarId → Prop) (stands : FieldKey → Variable → Prop) (symbol : String) :
    Call → Variable → Prop
  | data {call id name type} : call.leafType = .ok type →
      Describes refers stands symbol call (.data id name type (call.scope?.getD .ephemeral))
  | relation {call r refs} : Builder.ruleOf? call = some (.ok (r.rule, r.type)) →
      Expr.allReferences? call.args = some refs →
      List.Forall₂ (fun ref target => refers (ref.key symbol) target) refs r.targets →
      Describes refers stands symbol call (.relation r)
  | copy {r ref target scope?} : r.rule = .copy → stands (Reference.key symbol ref) target → r.targets = [target.id] →
      Variable.copyType r.name target.bounds = .ok r.type →
      Describes refers stands symbol ⟨"value", [.ref ref.1 ref.2], [], scope?⟩ (.relation r)
  | choice {id name scope?} {parts : List (Call × Variable)} :
      (∀ part ∈ parts, Describes refers stands symbol part.1 part.2) →
      Describes refers stands symbol ⟨"alt", parts.map fun part => .call part.1, [], scope?⟩
        (.choice id name (parts.map Prod.snd))
  | sequence {id name scope?} {parts : List (Call × Variable)} :
      (∀ part ∈ parts, Describes refers stands symbol part.1 part.2) →
      Describes refers stands symbol ⟨"agg", parts.map fun part => .call part.1, [], scope?⟩
        (.sequence id name (parts.map Prod.snd))
  | repetition {id name inner child counts count named scope? delimiter} : Describes refers stands symbol inner child →
      Builder.repeatCount counts = .ok count →
      Call.checkNames ⟨"repeat", [.call inner, counts], named, scope?⟩ ["delimiter"] = .ok () →
      (named.lookup "delimiter").mapM (asBits "repeat") = .ok delimiter →
      Describes refers stands symbol ⟨"repeat", [.call inner, counts], named, scope?⟩
        (.repetition id name child count delimiter)

section Describes

variable {refers refers' : FieldKey → VarId → Prop} {stands stands' : FieldKey → Variable → Prop} {symbol : String}

/-- A call still describes a variable if more is known of the fields. -/
theorem Call.Describes.mono {call : Call} {v : Variable} (h : call.Describes refers stands symbol v)
    (hr : ∀ key id, refers key id → refers' key id) (hs : ∀ key v, stands key v → stands' key v) :
    call.Describes refers' stands' symbol v := by
  induction h with
  | data type => exact .data type
  | relation rule refs targets => exact .relation rule refs (targets.imp fun _ _ => hr _ _)
  | copy rule target targets type => exact .copy rule (hs _ _ target) targets type
  | choice _ ih => exact .choice ih
  | sequence _ ih => exact .sequence ih
  | repetition _ counts names delimiter ih => exact .repetition ih counts names delimiter

end Describes

/-! ## What the builder makes of a call -/

namespace Builder

variable {b : Builder} {underway : List FieldKey} {fields fields' : Fields} {symbol : String}

/-- A field is among those that are built. -/
def Stands (b : Builder) (fields : Fields) (key : FieldKey) (v : Variable) : Prop :=
  (v.id, v) ∈ fields ∧ b.idOf key = .ok v.id

/-- A call describes a variable as far as fields are built. -/
def Describes (b : Builder) (fields : Fields) (symbol : String) : Call → Variable → Prop :=
  Call.Describes (fun key id => b.idOf key = .ok id) (b.Stands fields) symbol

theorem Describes.mono {call : Call} {v : Variable} (h : b.Describes fields symbol call v) (hs : fields ⊆ fields') :
    b.Describes fields' symbol call v :=
  Call.Describes.mono h (fun _ _ => id) fun _ _ hv => ⟨hs hv.1, hv.2⟩

/-- Each field is described by its declaration, as far as fields are built before it. -/
def Layered (b : Builder) : Fields → Prop
  | [] => True
  | (id, v) :: rest =>
    (∃ key f, b.idOf key = .ok id ∧ Declares b.decls key f ∧ b.Describes rest key.1 f.domain v) ∧ Layered b rest

theorem checkNames_nil {call : Call} (h : call.checkNames [] = .ok ()) : call.named = [] := by
  unfold Call.checkNames at h
  split at h
  next => cases h
  next hn => exact List.eq_nil_iff_forall_not_mem.mpr fun arg ha => by simpa using List.find?_eq_none.mp hn arg ha

/-- Whatever layers of fields there are before, there are layers afterwards, and a condition holds of the last ones. -/
structure Lays (b : Builder) (fields : Fields) (P : Fields → Prop) (fields' : Fields) : Prop where
  layered : b.Layered fields → b.Layered fields'
  holds : P fields'

theorem Lays.of_holds {P : Fields → Prop} (h : P fields) : b.Lays fields P fields :=
  ⟨fun layered => layered, h⟩

section Calls

variable {id : VarId} {name : String}

theorem relation_describes {call : Call} {made : Except GrammarError (Rule × DataType)}
    (hm : ruleOf? call = some made) :
    Builds b underway fields (b.relation symbol id name call made) fun v =>
      b.Lays fields fun fields' => b.Describes fields' symbol call v := by
  refine (Builds.lifted _).bind fun targets _ ht _ => (Builds.lifted _).bind fun rule _ hr _ => ?_
  obtain ⟨ht, rfl⟩ := ht
  obtain ⟨rfl, rfl⟩ := hr
  refine Builds.ofBuilt fun v hv => .of_holds ?_
  obtain ⟨rfl, -⟩ := Variable.mkRelation_eq_ok hv
  obtain ⟨refs, hrefs, targets⟩ := (targets_refer symbol call.function).2 _ _ ht
  exact .relation hm hrefs targets

theorem copy_describes {target : FieldKey → Build Variable} {args : List Expr} {named : List (String × Expr)}
    {scope? : Option Scope}
    (ht : ∀ key fields, Builds b underway fields (target key) fun v =>
      b.Lays fields fun fields' => b.Stands fields' key v) :
    Builds b underway fields (b.copy target symbol id name ⟨"value", args, named, scope?⟩) fun v =>
      b.Lays fields fun fields' => b.Describes fields' symbol ⟨"value", args, named, scope?⟩ v := by
  have made (ref : Reference) {fields start : Fields} {v : Variable}
      (hv : b.Lays start (b.Stands · (ref.key symbol) v) fields) :
      Builds b underway fields (Build.ofBuilt (Variable.mkCopy id name v)) fun w =>
        b.Lays start fun fields' => b.Describes fields' symbol ⟨"value", [.ref ref.1 ref.2], [], scope?⟩ w := by
    refine Builds.ofBuilt fun w hw => ⟨hv.layered, ?_⟩
    obtain ⟨type, htype, hw⟩ := ok_of_bind hw
    obtain ⟨rfl, -⟩ := Variable.mkRelation_eq_ok hw
    exact .copy rfl hv.holds rfl htype
  unfold copy
  refine (Builds.lifted _).bind fun _ _ hn _ => ?_
  obtain ⟨hn, rfl⟩ := hn
  cases checkNames_nil hn
  dsimp only
  split
  next symbol? field =>
    cases symbol? with
    | none => exact (ht _ _).bind fun v fields hv _ => made (none, field) hv
    | some other =>
      refine Builds.bind (P := fun found fields' => found = other ∧ fields' = _)
        ((Builds.lifted _).map fun decl _ hd => ⟨(declOf_eq_ok hd.1).2, hd.2⟩) fun found _ hf _ => ?_
      obtain ⟨rfl, rfl⟩ := hf
      exact (ht _ _).bind fun v fields hv _ => made (some _, field) hv
  next => exact Builds.fault _ _

/-- A call describes the variable that is built for it, which leaves the layers of fields as they are. -/
theorem variableOf_describes {target : FieldKey → Build Variable} (symbol : String)
    (ht : ∀ key fields, Builds b underway fields (target key) fun v =>
      b.Lays fields fun fields' => b.Stands fields' key v)
    (id : VarId) (name : String) (call : Call) (fields : Fields) :
    Builds b underway fields (b.variableOf target symbol id name call) fun v =>
      b.Lays fields fun fields' => b.Describes fields' symbol call v := by
  refine (variableOf.mutual_induct
    (fun id name call => ∀ fields, Builds b underway fields (b.variableOf target symbol id name call) fun v =>
      b.Lays fields fun fields' => b.Describes fields' symbol call v)
    (fun id name args => ∀ fields, Builds b underway fields (b.repeatedOf target symbol id name args) fun p =>
      b.Lays fields fun fields' => ∃ inner, args = [.call inner, p.2] ∧ b.Describes fields' symbol inner p.1)
    (fun id name function e => ∀ fields, Builds b underway fields (b.childOf target symbol id name function e) fun v =>
      b.Lays fields fun fields' => ∃ inner, e = .call inner ∧ b.Describes fields' symbol inner v)
    (fun id name function index es => ∀ fields, Builds b underway fields
      (b.childrenOf target symbol id name function index es) fun vs =>
        b.Lays fields fun fields' => ∃ parts : List (Call × Variable), es = parts.map (fun part => .call part.1) ∧
          vs = parts.map Prod.snd ∧ ∀ part ∈ parts, b.Describes fields' symbol part.1 part.2)
    ?alt ?agg ?repeated ?value ?relation ?leaf ?call ?noCall ?two ?notTwo ?nil ?cons).1 id name call fields
  case alt =>
    intro id name args named scope? ih fields
    rw [variableOf]
    refine (Builds.lifted _).bind fun _ _ hn _ => (ih _).bind fun vs fields hvs _ => Builds.ofBuilt fun v hv => ?_
    obtain ⟨hn, rfl⟩ := hn
    obtain ⟨layered, parts, rfl, rfl, described⟩ := hvs
    obtain ⟨rfl, -⟩ := mkChoice_eq_ok hv
    cases checkNames_nil hn
    exact ⟨layered, .choice described⟩
  case agg =>
    intro id name args named scope? ih fields
    rw [variableOf]
    refine (Builds.lifted _).bind fun _ _ hn _ => (ih _).bind fun vs fields hvs _ => Builds.ofBuilt fun v hv => ?_
    obtain ⟨hn, rfl⟩ := hn
    obtain ⟨layered, parts, rfl, rfl, described⟩ := hvs
    obtain ⟨rfl, -⟩ := mkSequence_eq_ok hv
    cases checkNames_nil hn
    exact ⟨layered, .sequence described⟩
  case repeated =>
    intro id name args named scope? ih fields
    rw [variableOf]
    refine (Builds.lifted _).bind fun _ start hn _ => ?_
    obtain ⟨hn, rfl⟩ := hn
    refine (ih start).bind fun p fields hp _ => ?_
    obtain ⟨child, counts⟩ := p
    obtain ⟨layered, inner, rfl, described⟩ := hp
    refine (Builds.lifted _).bind fun count built hc _ => ?_
    obtain ⟨hc, rfl⟩ := hc
    have made {delimiter : Option BitString} (hd : (named.lookup "delimiter").mapM (asBits "repeat") = .ok delimiter) :
        Builds b underway built (Build.ofBuilt (Variable.mkRepetition id name child count delimiter)) fun v =>
          b.Lays start fun fields' =>
            b.Describes fields' symbol ⟨"repeat", [.call inner, counts], named, scope?⟩ v := by
      refine Builds.ofBuilt fun v hv => ⟨layered, ?_⟩
      obtain ⟨rfl, -⟩ := mkRepetition_eq_ok hv
      exact .repetition described hc hn hd
    dsimp only
    split
    next e he =>
      refine Builds.bind (P := fun d fields' => some <$> asBits "repeat" e = .ok d ∧ fields' = built)
        ((Builds.lifted _).map fun d _ hd => ⟨by rw [hd.1]; rfl, hd.2⟩) fun d _ hd _ => ?_
      obtain ⟨hd, rfl⟩ := hd
      refine made ?_
      change named.lookup "delimiter" = some e at he
      rw [he]
      exact hd
    next he =>
      refine made ?_
      change named.lookup "delimiter" = none at he
      rw [he]
      rfl
  case value =>
    intro id name args named scope? fields
    rw [variableOf]
    exact copy_describes ht
  case relation =>
    intro id name function args named scope? call made hm ha hg hr hv fields
    rw [variableOf_relation hm]
    exact relation_describes hm
  case leaf =>
    intro id name function args named scope? call hm ha hg hr hv fields
    rw [variableOf_leaf hm ha hg hr hv]
    refine (Builds.lifted _).bind fun type _ ht _ => ?_
    obtain ⟨ht, rfl⟩ := ht
    exact Builds.pure (.of_holds (.data ht))
  case call =>
    intro id name function call ih fields
    rw [childOf]
    exact (ih fields).mono fun v fields' hv => ⟨hv.layered, call, rfl, hv.holds⟩
  case noCall =>
    intro id name function e he fields
    rw [childOf]
    · exact Builds.fault _ _
    · exact he
  case two =>
    intro id name child counts ih fields
    rw [repeatedOf]
    refine (ih fields).bind fun v fields hv _ => Builds.pure ⟨hv.layered, ?_⟩
    obtain ⟨inner, rfl, described⟩ := hv.holds
    exact ⟨inner, rfl, described⟩
  case notTwo =>
    intro es id name he fields
    rw [repeatedOf]
    · exact Builds.fault _ _
    · exact he
  case nil =>
    intro id name function index fields
    rw [childrenOf]
    exact Builds.pure (.of_holds ⟨[], rfl, rfl, by simp⟩)
  case cons =>
    intro id name function index e rest he hrest fields
    rw [childrenOf]
    refine (he fields).bind fun v fields hv _ => (hrest fields).bind fun vs fields' hvs ha => Builds.pure ?_
    obtain ⟨layered, inner, rfl, described⟩ := hv
    obtain ⟨layered', parts, rfl, rfl, others⟩ := hvs
    exact ⟨layered' ∘ layered, (inner, v) :: parts, rfl, rfl,
      List.forall_mem_cons.mpr ⟨described.mono ha.subset, others⟩⟩

end Calls

/-! ## Fields and symbols of the builder -/

/-- A field that is added is described by its declaration. -/
theorem add_layered {key : FieldKey} {id : VarId} {f : FieldDecl} {m : Build Variable}
    (hm : Builds b (key :: underway) fields m fun v =>
      b.Lays fields fun fields' => b.Describes fields' key.1 f.domain v)
    (hid : b.idOf key = .ok id) (hf : Declares b.decls key f) {P : Variable → Fields → Prop}
    (added : Builds b underway fields (do
      let v ← m
      modify ((id, v) :: ·)
      return v) P) :
    Builds b underway fields (do
      let v ← m
      modify ((id, v) :: ·)
      return v) fun _ last => b.Layered fields → b.Layered last := by
  intro ho x last hx
  obtain ⟨ho', adds, -⟩ := added ho x last hx
  refine ⟨ho', adds, fun layered => ?_⟩
  rw [StateT.run_bind] at hx
  cases hrun : m.run fields with
  | error e =>
    rw [hrun] at hx
    cases hx
  | ok p =>
    obtain ⟨v, fields'⟩ := p
    rw [hrun] at hx
    cases hx
    obtain ⟨-, -, laid⟩ := hm ho v _ hrun
    exact ⟨⟨key, f, hid, hf, laid.holds⟩, laid.layered layered⟩

theorem field_layered (depth : Nat) (underway : List FieldKey) (key : FieldKey) (fields : Fields) :
    Builds b underway fields (b.field depth underway key) fun v =>
      b.Lays fields fun fields' => b.Stands fields' key v := by
  suffices layers : Builds b underway fields (b.field depth underway key) fun _ last =>
      b.Layered fields → b.Layered last from
    (layers.and (field_builds depth underway key fields)).mono fun v fields' h => ⟨h.1, h.2.1, h.2.2.2⟩
  induction depth generalizing underway key fields with
  | zero =>
    rw [field_zero]
    exact fieldOr_builds (fun _ _ layered => layered) fun _ _ _ _ => Builds.fault _ _
  | succ depth ih =>
    rw [field_succ]
    refine fieldOr_builds (fun _ _ layered => layered) fun id hid hu hn => construct_builds fun f hf => ?_
    have inner (key' : FieldKey) (fields : Fields) := field_builds (b := b) depth (key :: underway) key' fields
    refine add_layered (variableOf_describes key.1 (fun key' fields => ?_) id key.2 f.domain _) hid hf
      (add_builds (variableOf_builds key.1 (fun key' fields => ?_) id key.2 f.domain _) hid hu hn)
    · exact ((ih (key :: underway) key' fields).and (inner key' fields)).mono fun v fields' h =>
        ⟨h.1, h.2.1, h.2.2.2⟩
    · exact (inner key' fields).mono fun v fields' h => ⟨h.1, h.2.1⟩

/-- A list of parts, each of which is related to what it is built from whatever is built later. -/
theorem mapM_lays {α γ : Type} {P : γ → α → Fields → Prop} (mono : ∀ {x y fields fields'}, P x y fields →
    fields ⊆ fields' → P x y fields') {make : γ → Build α}
    (h : ∀ x fields, Builds b underway fields (make x) fun y => b.Lays fields (P x y)) (xs : List γ)
    (fields : Fields) :
    Builds b underway fields (xs.mapM make) fun ys => b.Lays fields fun fields' =>
      List.Forall₂ (fun x y => P x y fields') xs ys := by
  induction xs generalizing fields with
  | nil => exact Builds.pure (.of_holds .nil)
  | cons x rest ih =>
    rw [List.mapM_cons]
    refine (h x fields).bind fun y fields hy _ => (ih fields).bind fun ys fields' hys ha => Builds.pure ?_
    exact ⟨hys.layered ∘ hy.layered, .cons (mono hy.holds ha.subset) hys.holds⟩

/-- A symbol has the fields of its declaration, each of which is built. -/
structure Fills (b : Builder) (fields : Fields) (decl : SymbolDecl) (s : Symbol) : Prop where
  name : s.name = decl.name
  fields : List.Forall₂ (fun f g => g.name = f.name ∧ b.Stands fields (decl.name, f.name) g.domain) decl.fields s.fields

theorem Stands.mono {key : FieldKey} {v : Variable} (h : b.Stands fields key v) (hs : fields ⊆ fields') :
    b.Stands fields' key v :=
  ⟨hs h.1, h.2⟩

theorem symbol_fills (decl : SymbolDecl) (fields : Fields) :
    Builds b [] fields (b.symbol decl) fun s => b.Lays fields fun fields' => b.Fills fields' decl s := by
  refine Builds.bind (mapM_lays
    (P := fun (f : FieldDecl) (g : Field) fields' => g.name = f.name ∧ b.Stands fields' (decl.name, f.name) g.domain)
    (fun h hs => ⟨h.1, h.2.mono hs⟩) (fun f fields => ?_) decl.fields fields) fun made fields' hm _ => ?_
  · exact (field_layered _ [] _ fields).bind fun v fields' hv _ => Builds.pure ⟨hv.layered, rfl, hv.holds⟩
  · refine Builds.ofBuilt fun s hs => ⟨hm.layered, ?_⟩
    unfold Symbol.build at hs
    split at hs
    next => cases hs
    next =>
      split at hs
      next => cases hs
      next =>
        cases hs
        exact ⟨rfl, hm.holds⟩

end Builder

/-! ## The fields that are declared -/

/-- The fields of all declarations in their order. -/
def fieldKeys (decls : List SymbolDecl) : List FieldKey :=
  decls.flatMap fun decl => decl.fields.map fun f => (decl.name, f.name)

namespace Builder

theorem addKeys_eq_ok {decl : SymbolDecl} {fs : List FieldDecl} {keys all : List FieldKey}
    (h : addKeys decl fs keys = .ok all) :
    all = keys ++ fs.map (fun f => (decl.name, f.name)) ∧ (keys.Nodup → all.Nodup) := by
  induction fs generalizing keys with
  | nil =>
    cases h
    simp
  | cons f rest ih =>
    rw [addKeys] at h
    split at h
    next => cases h
    next hn =>
      obtain ⟨rfl, nodup⟩ := ih h
      refine ⟨by simp, fun hk => nodup (List.nodup_append.mpr ⟨hk, List.nodup_singleton _, ?_⟩)⟩
      rintro key hkey _ hm rfl
      rw [List.mem_singleton] at hm
      exact hn (by simpa using hm ▸ hkey)

theorem collectKeys_eq_ok {decls : List SymbolDecl} {names : List String} {keys all : List FieldKey}
    (h : collectKeys decls names keys = .ok all) :
    all = keys ++ fieldKeys decls ∧ (keys.Nodup → all.Nodup) ∧ (decls.map (·.name)).Nodup ∧
      ∀ decl ∈ decls, decl.name ∉ names := by
  induction decls generalizing names keys with
  | nil =>
    cases h
    simp [fieldKeys]
  | cons decl rest ih =>
    rw [collectKeys] at h
    split at h
    next => cases h
    next hn =>
      obtain ⟨more, hm, h⟩ := ok_of_bind h
      obtain ⟨rfl, nodup⟩ := addKeys_eq_ok hm
      obtain ⟨rfl, nodup', distinct, others⟩ := ih h
      refine ⟨by simp [fieldKeys], nodup' ∘ nodup, ?_, ?_⟩
      · refine List.nodup_cons.mpr ⟨fun hmem => ?_, distinct⟩
        obtain ⟨other, ho, he⟩ := List.mem_map.mp hmem
        exact others other ho (he ▸ List.mem_cons_self)
      · refine List.forall_mem_cons.mpr ⟨by simpa using hn, fun other ho hm => ?_⟩
        exact others other ho (List.mem_cons_of_mem _ hm)

/-- The fields of the builder are those of the declarations, all of different names. -/
structure Declared (decls : List SymbolDecl) (b : Builder) : Prop where
  eq_decls : b.decls = decls
  eq_keys : b.keys = fieldKeys decls
  nodup : b.keys.Nodup
  names : (decls.map (·.name)).Nodup

theorem declared_of_ofDecls {decls : List SymbolDecl} {b : Builder} (h : ofDecls decls = .ok b) : Declared decls b := by
  obtain ⟨keys, hk, h⟩ := ok_of_bind h
  cases h
  obtain ⟨rfl, nodup, names, -⟩ := collectKeys_eq_ok hk
  exact ⟨rfl, rfl, nodup List.nodup_nil, names⟩

theorem mem_fieldKeys {decls : List SymbolDecl} {key : FieldKey} :
    key ∈ fieldKeys decls ↔ ∃ f, Declares decls key f := by
  simp only [fieldKeys, List.mem_flatMap, List.mem_map]
  constructor
  · rintro ⟨decl, hd, f, hf, rfl⟩
    exact ⟨f, decl, hd, rfl, hf, rfl⟩
  · rintro ⟨f, decl, hd, hn, hf, hfn⟩
    exact ⟨decl, hd, f, hf, Prod.ext hn hfn⟩

/-- A field has one declaration. -/
theorem Declared.unique {decls : List SymbolDecl} {b : Builder} (h : Declared decls b) {key : FieldKey}
    {f g : FieldDecl} (hf : Declares decls key f) (hg : Declares decls key g) : f = g := by
  obtain ⟨decl, hd, hn, hf, hfn⟩ := hf
  obtain ⟨decl', hd', hn', hg, hgn⟩ := hg
  obtain rfl : decl = decl' := List.inj_on_of_nodup_map h.names hd hd' (hn.trans hn'.symm)
  have nodup := h.eq_keys ▸ h.nodup
  have own := (List.nodup_flatMap.mp nodup).1 decl hd
  exact List.inj_on_of_nodup_map own hf hg (Prod.ext rfl (hfn.trans hgn.symm))

/-- What is built is described by its declaration. -/
theorem Layered.describes {b : Builder} {fields : Fields} (h : b.Layered fields) {id : VarId} {v : Variable}
    (hm : (id, v) ∈ fields) :
    ∃ key f, b.idOf key = .ok id ∧ Declares b.decls key f ∧ b.Describes fields key.1 f.domain v := by
  induction fields with
  | nil => cases hm
  | cons own rest ih =>
    obtain ⟨⟨key, f, hid, hf, described⟩, layered⟩ := h
    have hs : rest ⊆ own :: rest := List.subset_cons_self _ _
    rcases List.mem_cons.mp hm with rfl | hm
    · exact ⟨key, f, hid, hf, described.mono hs⟩
    · obtain ⟨key, f, hid, hf, described⟩ := ih layered hm
      exact ⟨key, f, hid, hf, described.mono hs⟩

end Builder

/-! ## The symbols of a text -/

open Builder

/-- The symbols of declarations have the fields that are declared, all of which are built. -/
theorem symbolsOf_filled {decls : List SymbolDecl} {symbols : List Symbol} (h : symbolsOf decls = .ok symbols) :
    ∃ b fields, Declared decls b ∧ InOrder fields ∧ b.Layered fields ∧ (∀ s ∈ symbols, MadeOf fields s) ∧
      List.Forall₂ (b.Fills fields) decls symbols := by
  obtain ⟨b, fields, hb, hrun⟩ := run_of_symbolsOf h
  have made := mapM_builds (P := fun s fields => MadeOf fields s)
    (fun h hs => ⟨fun f hf => hs (h.mem f hf), h.nodup⟩) (fun decl fields => symbol_builds (b := b) decl fields)
    decls []
  have filled := mapM_lays (P := fun decl s fields => b.Fills fields decl s)
    (fun h hs => ⟨h.name, h.fields.imp fun _ _ hg => ⟨hg.1, hg.2.mono hs⟩⟩) symbol_fills decls []
  obtain ⟨ho, -, hm, hf⟩ := (made.and filled) .nil symbols fields hrun
  exact ⟨b, fields, declared_of_ofDecls hb, ho, hf.layered trivial, hm, hf.holds⟩

/-- A field of one of the symbols. -/
def IsField (symbols : List Symbol) (key : FieldKey) (v : Variable) : Prop :=
  ∃ s ∈ symbols, s.name = key.1 ∧ ∃ g ∈ s.fields, g.name = key.2 ∧ g.domain = v

/-- A symbol has the fields of its declaration, and their relations refer to fields of the symbols as declared. -/
structure Wired (symbols : List Symbol) (decl : SymbolDecl) (s : Symbol) : Prop where
  name : s.name = decl.name
  fields : List.Forall₂ (fun f g => g.name = f.name ∧
    f.domain.Describes (fun key id => ∃ v, IsField symbols key v ∧ v.id = id) (IsField symbols) decl.name g.domain)
    decl.fields s.fields

section Filled

variable {decls : List SymbolDecl} {symbols : List Symbol} {b : Builder} {fields : Fields}

theorem exists_field (h : List.Forall₂ (b.Fills fields) decls symbols) {key : FieldKey} {f : FieldDecl}
    (hf : Declares decls key f) : ∃ v, IsField symbols key v ∧ b.Stands fields key v := by
  obtain ⟨decl, hd, hn, hf, hfn⟩ := hf
  obtain ⟨s, hs, fills⟩ := exists_of_mem_forall₂ h.flip hd
  obtain ⟨g, hg, hgn, stands⟩ := exists_of_mem_forall₂ fills.fields.flip hf
  have he : (decl.name, f.name) = key := Prod.ext hn hfn
  exact ⟨g.domain, ⟨s, hs, fills.name.trans hn, g, hg, hgn.trans hfn, rfl⟩, he ▸ stands⟩

theorem stands_of_mem (h : List.Forall₂ (b.Fills fields) decls symbols) {s : Symbol} (hs : s ∈ symbols) {g : Field}
    (hg : g ∈ s.fields) : b.Stands fields (s.name, g.name) g.domain := by
  obtain ⟨decl, -, fills⟩ := exists_of_mem_forall₂ h hs
  obtain ⟨f, -, hn, stands⟩ := exists_of_mem_forall₂ fills.fields hg
  rwa [fills.name, hn]

/-- A field of the symbols is built for its name. -/
theorem IsField.stands {key : FieldKey} {v : Variable} (hv : IsField symbols key v)
    (h : List.Forall₂ (b.Fills fields) decls symbols) : b.Stands fields key v := by
  obtain ⟨s, hs, hn, g, hg, hgn, rfl⟩ := hv
  have he : (s.name, g.name) = key := Prod.ext hn hgn
  exact he ▸ stands_of_mem h hs hg

/-- Only one variable is built for a name. -/
theorem Builder.Stands.unique (ho : InOrder fields) {key : FieldKey} {v w : Variable} (hv : b.Stands fields key v)
    (hw : b.Stands fields key w) : v = w := by
  have same : v.id = w.id := Except.ok.inj (hv.2.symm.trans hw.2)
  exact congrArg Prod.snd (List.inj_on_of_nodup_map ho.nodup hv.1 hw.1 same)

/-- A field that is built is the one of its name in the symbols. -/
theorem exists_of_idOf (ho : InOrder fields) (declared : Declared decls b)
    (h : List.Forall₂ (b.Fills fields) decls symbols) {key : FieldKey} {id : VarId} (hid : b.idOf key = .ok id) :
    ∃ v, IsField symbols key v ∧ v.id = id ∧ ∀ w, b.Stands fields key w → w = v := by
  obtain ⟨index, hi, -⟩ := idOf_eq_ok hid
  obtain ⟨f, hf⟩ := mem_fieldKeys.mp (declared.eq_keys ▸ List.mem_of_getElem? hi)
  obtain ⟨v, hv, stands⟩ := exists_field h hf
  exact ⟨v, hv, Except.ok.inj (stands.2.symm.trans hid), fun w hw => hw.unique ho stands⟩

/-- The identities of all symbols are different, also those of two symbols. -/
theorem nodup_of_filled (ho : InOrder fields) (declared : Declared decls b) (made : ∀ s ∈ symbols, MadeOf fields s)
    (h : List.Forall₂ (b.Fills fields) decls symbols) : (symbols.flatMap Symbol.variableIds).Nodup := by
  have names : symbols.map (·.name) = decls.map (·.name) := by
    refine List.forall₂_eq_eq_eq ▸ ?_
    rw [List.forall₂_map_left_iff, List.forall₂_map_right_iff]
    exact (h.imp fun decl s fills => fills.name).flip
  have distinct : (symbols.map (·.name)).Nodup := names ▸ declared.names
  refine List.nodup_flatMap.mpr ⟨fun s hs => (made s hs).nodup_variableIds ho, ?_⟩
  refine (List.pairwise_map.mp distinct).imp_of_mem fun {s t} hs ht hne i his hit => hne ?_
  obtain ⟨f, hf, hif⟩ := mem_variableIds.mp his
  obtain ⟨g, hg, hig⟩ := mem_variableIds.mp hit
  have same := ho.eq_of_mem_ids ((made s hs).mem f hf) ((made t ht).mem g hg) hif hig
  have root : f.domain.id = g.domain.id := congrArg Prod.fst same
  have named := (stands_of_mem h hs hf).2
  rw [root] at named
  exact congrArg Prod.fst (idOf_injective named (stands_of_mem h ht hg).2)

/-- Each field of a symbol is described by its declaration, with the fields of the symbols as they are in the end. -/
theorem wired_of_filled (ho : InOrder fields) (declared : Declared decls b) (layered : b.Layered fields)
    (h : List.Forall₂ (b.Fills fields) decls symbols) : List.Forall₂ (Wired symbols) decls symbols := by
  have fills := (List.forall₂_and_left (p := (· ∈ decls)) decls symbols).mpr ⟨fun _ hd => hd, h⟩
  refine fills.imp fun decl s ⟨hd, fills⟩ => ⟨fills.name, ?_⟩
  have parts := (List.forall₂_and_left (p := (· ∈ decl.fields)) decl.fields s.fields).mpr ⟨fun _ hf => hf, fills.fields⟩
  refine parts.imp fun f g ⟨hf, hn, stands⟩ => ⟨hn, ?_⟩
  obtain ⟨key, f', hid, hf', described⟩ := layered.describes stands.1
  obtain rfl := idOf_injective hid stands.2
  rw [declared.eq_decls] at hf'
  obtain rfl := declared.unique hf' ⟨decl, hd, rfl, hf, rfl⟩
  refine Call.Describes.mono described (fun key id hid => ?_) fun key v hv => ?_
  · obtain ⟨w, hw, he, -⟩ := exists_of_idOf ho declared h hid
    exact ⟨w, hw, he⟩
  · obtain ⟨w, hw, -, unique⟩ := exists_of_idOf ho declared h hv.2
    exact unique v hv ▸ hw

end Filled

/-- Relations on fields that are declared later and in another symbol, and copies of a field that is built for them. -/
def crossReferences : String :=
  "symbol \"A\" \x7b n: size([body, B.k], type=uint16()); copy: value(body); body: agg(raw(1..4), crc32(n)); \x7d
symbol \"B\" \x7b m: value(A.body); k: uint8(); \x7d"

end WireGrammar.Grammar
