import Mathlib.Logic.Relation
import WireGrammar.Proofs.Grammar.Arguments

/-!
# Copies that go round in a circle

A field is copied from another one if its domain mentions a copy of that at any depth (`CopiesFrom`). Since no field is
under construction twice, there are never more fields under construction than there are fields (`fieldWithin_eq`). The
fields under construction lead to each other by copies, so the one that is found twice lies on a circle
(`fieldWithin_blames`), and fields that are built are copied only from those that were built before them, so there is
no circle among them (`Layered.acc`).
-/

namespace WireGrammar.Grammar

open Builder

/-- The domain of a field mentions a copy of another field. -/
def CopiesFrom (counts : Call → String → Expr → Prop) (decls : List SymbolDecl) (key other : FieldKey) : Prop :=
  ∃ f, Declares decls key f ∧ ∃ ref, Expr.Mentions counts (.call f.domain) ref ∧ other = ref.key key.1

/-! ## Fields under construction -/

namespace Builder

section Construction

variable (b : Builder)

/-- The variable of a field, where `beyond` stands for the construction of one more field than `depth` allows. -/
def fieldWithin (beyond : List FieldKey → FieldKey → Build Variable) :
    Nat → List FieldKey → FieldKey → Build Variable
  | 0, underway, key => b.fieldOr underway key fun _ => beyond underway key
  | depth + 1, underway, key => b.fieldOr underway key (b.construct (fieldWithin beyond depth (key :: underway)) key)

theorem field_eq_fieldWithin : b.field =
    b.fieldWithin fun _ key => liftM (fault "value" (.dependsOnItself key.1 key.2) : Except GrammarError Variable) := by
  funext depth
  induction depth with
  | zero =>
    funext underway key
    rw [field_zero, fieldWithin]
  | succ depth ih =>
    funext underway key
    rw [field_succ, fieldWithin, ih]

end Construction

variable {b : Builder} {underway : List FieldKey} {key : FieldKey}

theorem fieldOr_of_ok {make : VarId → Build Variable} {id : VarId} (h : b.idOf key = .ok id) :
    b.fieldOr underway key make = get >>= fun (fields : Fields) =>
      match fields.lookup id with
      | some v => pure v
      | none => if underway.contains key then fault "value" (.dependsOnItself key.1 key.2) else make id := by
  unfold fieldOr
  rw [h]
  rfl

theorem fieldOr_congr {make make' : VarId → Build Variable}
    (h : ∀ id, b.idOf key = .ok id → key ∉ underway → make id = make' id) :
    b.fieldOr underway key make = b.fieldOr underway key make' := by
  cases hid : b.idOf key with
  | error e =>
    unfold fieldOr
    rw [hid]
    rfl
  | ok id =>
    rw [fieldOr_of_ok hid, fieldOr_of_ok hid]
    refine bind_congr fun fields => ?_
    split
    next => rfl
    next =>
      split
      next => rfl
      next hu => exact h id hid (by simpa using hu)

theorem mem_keys_of_idOf {id : VarId} (h : b.idOf key = .ok id) : key ∈ b.keys := by
  obtain ⟨index, hi, -⟩ := idOf_eq_ok h
  exact List.mem_of_getElem? hi

/-- Different fields under construction do not become more than there are fields, so nothing happens beyond. -/
theorem fieldWithin_eq (beyond beyond' : List FieldKey → FieldKey → Build Variable) {depth : Nat}
    (nodup : underway.Nodup) (fields : underway ⊆ b.keys) (enough : b.keys.length ≤ depth + underway.length) :
    b.fieldWithin beyond depth underway key = b.fieldWithin beyond' depth underway key := by
  induction depth generalizing underway key with
  | zero =>
    refine fieldOr_congr fun id hid hu => ?_
    have more : (key :: underway).length ≤ b.keys.length :=
      (List.subperm_of_subset (nodup.cons hu) (List.cons_subset.mpr ⟨mem_keys_of_idOf hid, fields⟩)).length_le
    rw [List.length_cons] at more
    omega
  | succ depth ih =>
    refine fieldOr_congr fun id hid hu => ?_
    have inner : b.fieldWithin beyond depth (key :: underway) = b.fieldWithin beyond' depth (key :: underway) := by
      funext other
      refine ih (nodup.cons hu) (List.cons_subset.mpr ⟨mem_keys_of_idOf hid, fields⟩) ?_
      rw [List.length_cons]
      omega
    rw [inner]

/-! ## Fields that depend on themselves -/

/-- A construction says only of fields with a property that they depend on themselves. -/
def Blames {α : Type} (m : Build α) (P : FieldKey → Prop) : Prop :=
  ∀ fields e, m.run fields = .error e → ∀ key, selfDependent? e = some key → P key

section Blames

variable {α β : Type} {m : Build α} {P : FieldKey → Prop} {symbol : String}

theorem Blames.pure (x : α) : Blames (pure x) P :=
  nofun

theorem Blames.throw {e : GrammarError} (h : ∀ key, selfDependent? e = some key → P key) :
    Blames (throw e : Build α) P := by
  intro fields e' he
  cases he
  exact h

theorem Blames.bind {f : α → Build β} (h : Blames m P) (hf : ∀ x, Blames (f x) P) : Blames (m >>= f) P := by
  intro fields e he
  rw [StateT.run_bind] at he
  cases hm : m.run fields with
  | error e' =>
    rw [hm] at he
    cases he
    exact h fields e hm
  | ok p =>
    rw [hm] at he
    exact hf p.1 p.2 e he

/-- What is lifted into a construction finds no field, and goes on with what it returns. -/
theorem Blames.lift_bind {made : Except GrammarError α} {f : α → Build β} (h : Blameless made)
    (hf : ∀ x, made = .ok x → Blames (f x) P) : Blames (liftM made >>= f) P := by
  cases made with
  | error e =>
    intro fields e' he
    cases he
    simp [h e rfl]
  | ok x => exact hf x rfl

theorem Blames.throw_of_none {e : GrammarError} (h : selfDependent? e = none) :
    Blames (MonadExcept.throw e : Build α) P :=
  Blames.throw fun key hk => by simp [h] at hk

theorem Blames.fault {function : String} {e : ArgumentFault} (h : selfDependent? (.badArgument function e) = none) :
    Blames (liftM (fault function e : Except GrammarError α)) P :=
  Blames.throw_of_none h

theorem Blames.ofBuilt (built : Built α) : Blames (Build.ofBuilt built) P := by
  cases built with
  | error e => exact Blames.throw_of_none rfl
  | ok x => exact Blames.pure x

theorem relation_blames {id : VarId} {name : String} {call : Call} {made : Except GrammarError (Rule × DataType)}
    (h : ruleOf? call = some made) : Blames (b.relation symbol id name call made) P :=
  Blames.lift_bind ((targets_blameless _ _).2 _) fun _ _ => Blames.lift_bind (ruleOf?_blameless h) fun _ _ =>
    Blames.ofBuilt _

theorem copy_blames {target : FieldKey → Build Variable} {id : VarId} {name : String} {args : List Expr}
    {named : List (String × Expr)} {scope? : Option Scope}
    (ht : ∀ ref : Reference, args = [.ref ref.1 ref.2] → Blames (target (ref.key symbol)) P) :
    Blames (b.copy target symbol id name ⟨"value", args, named, scope?⟩) P := by
  unfold copy
  refine Blames.lift_bind (checkNames_blameless _) fun _ _ => ?_
  dsimp only
  split
  next symbol? field _ =>
    cases symbol? with
    | none => exact (ht (none, field) rfl).bind fun _ => Blames.ofBuilt _
    | some other =>
      dsimp only
      rw [map_eq_pure_bind, bind_assoc]
      refine Blames.lift_bind (declOf_blameless _) fun decl hd => ?_
      obtain rfl := (declOf_eq_ok hd).2
      exact (ht (some decl.name, field) rfl).bind fun _ => Blames.ofBuilt _
  next => exact Blames.fault rfl

/-- Of the fields that depend on themselves, the construction of a call finds those that its copies are made of. -/
theorem variableOf_blames {counts : Call → String → Expr → Prop} {target : FieldKey → Build Variable} (id : VarId)
    (name : String) (call : Call)
    (ht : ∀ ref, Expr.Mentions counts (.call call) ref → Blames (target (ref.key symbol)) P) :
    Blames (b.variableOf target symbol id name call) P := by
  refine (variableOf.mutual_induct
    (fun id name call => (∀ ref, Expr.Mentions counts (.call call) ref → Blames (target (ref.key symbol)) P) →
      Blames (b.variableOf target symbol id name call) P)
    (fun id name args => (∀ e ∈ args, ∀ ref, Expr.Mentions counts e ref → Blames (target (ref.key symbol)) P) →
      Blames (b.repeatedOf target symbol id name args) P)
    (fun id name function e => (∀ ref, Expr.Mentions counts e ref → Blames (target (ref.key symbol)) P) →
      Blames (b.childOf target symbol id name function e) P)
    (fun id name function index es => (∀ e ∈ es, ∀ ref, Expr.Mentions counts e ref →
      Blames (target (ref.key symbol)) P) → Blames (b.childrenOf target symbol id name function index es) P)
    ?alt ?agg ?repeated ?value ?relation ?leaf ?call ?noCall ?two ?notTwo ?nil ?cons).1 id name call ht
  case alt =>
    intro id name args named scope? ih ht
    rw [variableOf]
    exact Blames.lift_bind (checkNames_blameless _) fun _ _ =>
      (ih fun e he ref hm => ht ref (.arg he hm)).bind fun _ => Blames.ofBuilt _
  case agg =>
    intro id name args named scope? ih ht
    rw [variableOf]
    exact Blames.lift_bind (checkNames_blameless _) fun _ _ =>
      (ih fun e he ref hm => ht ref (.arg he hm)).bind fun _ => Blames.ofBuilt _
  case repeated =>
    intro id name args named scope? ih ht
    rw [variableOf]
    refine Blames.lift_bind (checkNames_blameless _) fun _ _ =>
      (ih fun e he ref hm => ht ref (.arg he hm)).bind fun p =>
        Blames.lift_bind (repeatCount_blameless _) fun count _ => ?_
    dsimp only
    split
    next e =>
      rw [map_eq_pure_bind, bind_assoc]
      exact Blames.lift_bind (asBits_blameless _ _) fun _ _ => Blames.ofBuilt _
    next => exact Blames.ofBuilt _
  case value =>
    intro id name args named scope? ht
    rw [variableOf]
    refine copy_blames fun ref he => ?_
    subst he
    exact ht ref .value
  case relation =>
    intro id name function args named scope? call made hm ha hg hr hv ht
    rw [variableOf_relation hm]
    exact relation_blames hm
  case leaf =>
    intro id name function args named scope? call hm ha hg hr hv ht
    rw [variableOf_leaf hm ha hg hr hv]
    exact Blames.lift_bind (leafType_blameless _) fun _ _ => Blames.pure _
  case call =>
    intro id name function call ih ht
    rw [childOf]
    exact ih ht
  case noCall =>
    intro id name function e he ht
    rw [childOf]
    · exact Blames.fault rfl
    · exact he
  case two =>
    intro id name child counts ih ht
    rw [repeatedOf]
    exact (ih fun ref hm => ht child List.mem_cons_self ref hm).bind fun _ => Blames.pure _
  case notTwo =>
    intro es id name he ht
    rw [repeatedOf]
    · exact Blames.fault rfl
    · exact he
  case nil =>
    intro id name function index ht
    rw [childrenOf]
    exact Blames.pure _
  case cons =>
    intro id name function index e rest he hrest ht
    rw [childrenOf]
    obtain ⟨own, others⟩ := List.forall_mem_cons.mp ht
    exact (he own).bind fun _ => (hrest others).bind fun _ => Blames.pure _

theorem fieldOr_blames {make : VarId → Build Variable} (hu : key ∈ underway → P key) (hm : ∀ id, Blames (make id) P) :
    Blames (b.fieldOr underway key make) P := by
  refine Blames.lift_bind (idOf_blameless _) fun id _ => Blames.bind nofun fun fields => ?_
  split
  next => exact Blames.pure _
  next =>
    split
    next h =>
      refine Blames.throw fun other he => ?_
      obtain rfl : key = other := Option.some.inj he
      exact hu (by simpa using h)
    next => exact hm id

theorem construct_blames {counts : Call → String → Expr → Prop} {target : FieldKey → Build Variable}
    (ht : ∀ other, CopiesFrom counts b.decls key other → Blames (target other) P) (id : VarId) :
    Blames (b.construct target key id) P := by
  refine Blames.lift_bind (declOf_blameless _) fun decl hd => ?_
  split
  next => exact Blames.throw_of_none rfl
  next f hf =>
    have step (ref : Reference) (hm : Expr.Mentions counts (.call f.domain) ref) :
        CopiesFrom counts b.decls key (ref.key key.1) := ⟨f, declares_of_find? hd hf, ref, hm, rfl⟩
    exact (variableOf_blames id key.2 f.domain fun ref hm => ht _ (step ref hm)).bind fun _ =>
      Blames.bind nofun fun _ => Blames.pure _

/-- The fields under construction lead to the next one by copies, so one that is found again lies on a circle. -/
theorem fieldWithin_blames {counts : Call → String → Expr → Prop} {beyond : List FieldKey → FieldKey → Build Variable}
    (hb : ∀ underway key, Blames (beyond underway key) P) (depth : Nat)
    (chain : ∀ other ∈ underway, Relation.TransGen (CopiesFrom counts b.decls) other key)
    (circle : ∀ other, Relation.TransGen (CopiesFrom counts b.decls) other other → P other) :
    Blames (b.fieldWithin beyond depth underway key) P := by
  induction depth generalizing underway key with
  | zero => exact fieldOr_blames (fun hu => circle key (chain key hu)) fun _ => hb _ _
  | succ depth ih =>
    refine fieldOr_blames (fun hu => circle key (chain key hu))
      (construct_blames fun other (step : CopiesFrom counts b.decls key other) => ih ?_)
    exact List.forall_mem_cons.mpr ⟨.single step, fun u hu => (chain u hu).tail step⟩

theorem mapM_blames {γ : Type} {make : γ → Build α} (h : ∀ x, Blames (make x) P) (xs : List γ) :
    Blames (xs.mapM make) P := by
  induction xs with
  | nil => exact Blames.pure _
  | cons x rest ih =>
    rw [List.mapM_cons]
    exact (h x).bind fun _ => ih.bind fun _ => Blames.pure _

/-- What the construction of a field does when fields run out does not matter if it starts with none. -/
theorem field_eq_within (b : Builder) (beyond : List FieldKey → FieldKey → Build Variable) (key : FieldKey) :
    b.fieldWithin beyond b.keys.length [] key = b.field b.keys.length [] key := by
  rw [field_eq_fieldWithin]
  exact fieldWithin_eq _ _ List.nodup_nil (List.nil_subset _) (Nat.le_refl _)

theorem symbol_blames (counts : Call → String → Expr → Prop) (decl : SymbolDecl) :
    Blames (b.symbol decl) fun key => Relation.TransGen (CopiesFrom counts b.decls) key key := by
  refine (mapM_blames (fun f => ?_) decl.fields).bind fun _ => Blames.ofBuilt _
  rw [← field_eq_within b fun _ key => throw (.unknownReference key.2)]
  exact (fieldWithin_blames (fun _ _ => Blames.throw_of_none rfl) _ (by simp) fun _ => id).bind fun _ => Blames.pure _

end Blames

end Builder

/-- A field that depends on itself lies on a circle of copies. -/
theorem transGen_of_dependsOnItself {counts : Call → String → Expr → Prop} {decls : List SymbolDecl}
    {function symbol field : String}
    (h : symbolsOf decls = .error (.badArgument function (.dependsOnItself symbol field))) :
    Relation.TransGen (CopiesFrom counts decls) (symbol, field) (symbol, field) := by
  cases hb : ofDecls decls with
  | error e =>
    rw [symbolsOf, hb] at h
    cases h
    cases ofDecls_blameless decls _ hb
  | ok b =>
    rw [symbolsOf, hb] at h
    change (decls.mapM b.symbol).run' [] = _ at h
    rw [StateT.run'_eq] at h
    cases hrun : (decls.mapM b.symbol).run [] with
    | error e =>
      rw [hrun] at h
      cases h
      have blamed := mapM_blames (symbol_blames counts) decls [] _ hrun (symbol, field) rfl
      rwa [(declared_of_ofDecls hb).eq_decls] at blamed
    | ok p =>
      rw [hrun] at h
      cases h

/-! ## Circles -/

section Circles

variable {decls : List SymbolDecl} {b : Builder} {fields : Fields}

/-- From a field that is built, copies lead only finitely far. -/
theorem Builder.Layered.acc (declared : Declared decls b) (layered : b.Layered fields) {key : FieldKey} {v : Variable}
    (h : b.Stands fields key v) : Acc (fun other key => CopiesFrom Call.Reads decls key other) key := by
  induction fields generalizing key v with
  | nil => cases h.1
  | cons own rest ih =>
    obtain ⟨⟨key', f, hid, hf, described⟩, layered⟩ := layered
    rcases List.mem_cons.mp h.1 with rfl | hm
    · obtain rfl := idOf_injective hid h.2
      refine Acc.intro key' fun other step => ?_
      obtain ⟨g, hg, ref, hm, rfl⟩ := step
      obtain rfl := declared.unique (declared.eq_decls ▸ hf) hg
      obtain ⟨w, hw⟩ := described.mentions hm
      exact ih layered hw
    · exact ih layered ⟨hm, h.2⟩

/-- There is no circle of copies among the symbols of declarations. -/
theorem not_transGen_of_ok {symbols : List Symbol} (h : symbolsOf decls = .ok symbols) (key : FieldKey) :
    ¬ Relation.TransGen (CopiesFrom Call.Reads decls) key key := by
  intro circle
  obtain ⟨b, fields, declared, -, layered, -, filled⟩ := symbolsOf_filled h
  obtain ⟨other, ⟨f, hf, -⟩, -⟩ := Relation.TransGen.head'_iff.mp circle
  obtain ⟨v, -, stands⟩ := exists_field filled hf
  exact not_transGen_of_acc (layered.acc declared stands) circle

end Circles

/--
A construction has never more fields under construction than there are fields, whatever would be done beyond; if it
finds that a field depends on itself, copies lead from this field back to it; and if there is any such circle of copies
then declarations have no symbols.
-/
theorem copies_end (decls : List SymbolDecl) :
    (∀ b, ofDecls decls = .ok b → b.keys = fieldKeys decls ∧ b.keys.Nodup ∧ ∀ beyond key,
      b.fieldWithin beyond b.keys.length [] key = b.field b.keys.length [] key) ∧
    (∀ function symbol field, symbolsOf decls = .error (.badArgument function (.dependsOnItself symbol field)) →
      Relation.TransGen (CopiesFrom Call.Reads decls) (symbol, field) (symbol, field)) ∧
    ∀ key, Relation.TransGen (CopiesFrom Call.Reads decls) key key → ∀ symbols, symbolsOf decls ≠ .ok symbols :=
  ⟨fun b hb => ⟨(declared_of_ofDecls hb).eq_keys, (declared_of_ofDecls hb).nodup, field_eq_within b⟩,
    fun _ _ _ => transGen_of_dependsOnItself, fun key circle _ h => not_transGen_of_ok h key circle⟩

/-- Two fields each of which is a copy of the other one. -/
def mutualCopies : List SymbolDecl :=
  [⟨"S", [⟨"x", ⟨"value", [.ref none "y"], [], none⟩⟩, ⟨"y", ⟨"value", [.ref (some "S") "x"], [], none⟩⟩]⟩]

/-- The first field of `mutualCopies` depends on itself. -/
theorem copies_end_mutualCopies : ∃ b function, ofDecls mutualCopies = .ok b ∧
    b.keys = [("S", "x"), ("S", "y")] ∧ (∀ beyond key, b.fieldWithin beyond 2 [] key = b.field 2 [] key) ∧
    symbolsOf mutualCopies = .error (.badArgument function (.dependsOnItself "S" "x")) ∧
    Relation.TransGen (CopiesFrom Call.Reads mutualCopies) ("S", "x") ("S", "x") ∧
    ∀ symbols, symbolsOf mutualCopies ≠ .ok symbols := by
  have run : (match symbolsOf mutualCopies with
      | .error e => selfDependent? e
      | .ok _ => none) = some ("S", "x") := by
    decide +kernel
  obtain ⟨bounded, found, unbuilt⟩ := copies_end mutualCopies
  cases h : symbolsOf mutualCopies with
  | ok symbols =>
    rw [h] at run
    cases run
  | error e =>
    rw [h] at run
    obtain ⟨function, rfl⟩ := selfDependent?_eq_some run
    obtain ⟨keys, -, same⟩ := bounded _ rfl
    have circle := found function "S" "x" h
    exact ⟨_, function, rfl, keys, same, rfl, circle, h ▸ unbuilt _ circle⟩

/-- A size whose type is given twice, the second time as a copy of the size itself. -/
def typedTwice : List SymbolDecl :=
  [⟨"S", [⟨"x", ⟨"raw", [.int 1], [], none⟩⟩,
    ⟨"n", ⟨"size", [.ref none "x"],
      [("type", .call ⟨"uint8", [], [], none⟩), ("type", .call ⟨"value", [.ref none "n"], [], none⟩)], none⟩⟩]⟩]

/-- The second argument of a name is never read, so a copy in it is on a circle but does not keep symbols from being
built. -/
theorem copies_end_typedTwice :
    Relation.TransGen (CopiesFrom Call.Gives typedTwice) ("S", "n") ("S", "n") ∧
      ∃ symbols, symbolsOf typedTwice = .ok symbols := by
  have run : (symbolsOf typedTwice).toOption.isSome = true := by decide +kernel
  obtain ⟨symbols, h⟩ := Option.isSome_iff_exists.mp run
  refine ⟨.single ⟨_, ⟨_, List.mem_cons_self, rfl, List.mem_cons_of_mem _ List.mem_cons_self, rfl⟩, (none, "n"), ?_,
    rfl⟩, symbols, ok_of_toOption h⟩
  exact .named (List.mem_cons_of_mem _ List.mem_cons_self) (@Expr.Mentions.value _ (none, "n") [] none)

end WireGrammar.Grammar
