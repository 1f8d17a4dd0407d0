import Mathlib.Data.List.Basic
import WireGrammar.Proofs.Generation.Steps
import WireGrammar.Proofs.Interpretation.Fits

/-!
# Runs of generation

A run that generates a variable follows a derivation of it: each leaf holds a value that it may hold, and the content
recorded has the atoms of the derivation, some slots replaced by values of their relations (`generate_run`). Whatever
each last step of a variable below preserves holds just before the last step of the run (`Keeps`), so a run lemma about
a property needs no more than a step lemma about it.

* `Variable.WellPlaced`: no record that is still needed is replaced by that of another variable.
-/

namespace WireGrammar

open Assignment

namespace Variable

/-- What a generator puts into a leaf: anything where a mutator is bound to it. -/
def MadeLeaf (bound : Bindings) (a : Assignment) : LeafRule :=
  fun id type scope bits => bound.has id = false → HoldsLeaf a id type scope bits

/-- How many instances a generator makes when it has no mutators. -/
def CountsTo (bound : Bindings) (maxRepeat : Nat) (count : RepeatCount) (k : Nat) : Prop :=
  bound = none → count.least ≤ k ∧ k < min count.stop (max maxRepeat (count.least + 1))

/-- No record that is still needed is replaced by that of another variable, and repetitions have a count. -/
structure WellPlaced (all : List Variable) : Prop where
  /-- No child of a sequence occurs again in a later child. -/
  separate : ∀ {id name children}, .sequence id name children ∈ all → children.Pairwise fun c d => c.id ∉ d.ids
  unique : ∀ {v w}, v ∈ all → w ∈ all → v.id = w.id → v = w
  counted : ∀ {id name child count delimiter}, .repetition id name child count delimiter ∈ all →
    count.least < count.stop

theorem MadeLeaf.grows {bound : Bindings} {a b : Assignment} {ids : List VarId} (hg : Grows ids a b) {id : VarId}
    {type : DataType} {scope : Scope} {bits : BitString} (h : MadeLeaf bound a id type scope bits) :
    MadeLeaf bound b id type scope bits :=
  fun hm => (h hm).grows hg

/-- What fits goes on fitting. -/
theorem Fits.grows {bound : Bindings} {a b : Assignment} {ids : List VarId} (hg : Grows ids a b)
    {counts : RepeatCount → Nat → Prop} {v : Variable} {d : Derivation} (h : Fits (MadeLeaf bound a) counts v d) :
    Fits (MadeLeaf bound b) counts v d :=
  h.mono fun hb => hb.grows hg

end Variable

/-! ## Runs -/

/-- A leaf holds the value that it got. -/
theorem Assignment.LeafValue.made {bound : Bindings} {a b : Assignment} {id : VarId} {type : DataType} {scope : Scope}
    {value : BitString} (h : LeafValue bound id type scope a value b) :
    Variable.MadeLeaf bound b id type scope value := by
  intro hm
  cases h with
  | replay h => exact .of_replayed h
  | fresh h hs ha => exact .of_fresh h ha
  | mutated hb =>
    rw [hm] at hb
    cases hb

namespace Generation

open Variable

variable {ρ : Type} [RandomSource ρ] {limits : GenerationLimits} {all vars vars' : List Variable} {bound : Bindings}
  {Inv : Assignment → Prop} {V : VarId → BitString → Prop}

/-- A property that each last step of the given variables preserves, with what it says about relations. -/
structure Keeps (bound : Bindings) (all vars : List Variable) (Inv : Assignment → Prop) (V : VarId → BitString → Prop) :
    Prop where
  step : ∀ w ∈ vars, ∀ b c, Inv b → LastStep bound w b c → Inv c
  pending : ∀ b, Inv b → ∀ r ∈ b.pending, .relation r ∈ all
  distinct : ∀ b, Inv b → b.Distinct
  /-- Relations that do not wait have values of some kind. -/
  values : ∀ b, Inv b → ∀ id bits, b.isPending id = false → b.cell? id = some (.known bits) → V id bits

theorem Keeps.mono (h : Keeps bound all vars Inv V) (hs : vars' ⊆ vars) : Keeps bound all vars' Inv V :=
  ⟨fun w hw => h.step w (hs hw), h.pending, h.distinct, h.values⟩

/-- No relation that waits has the identity of a variable of another kind. -/
def WaitsApart (all : List Variable) (a : Assignment) : Prop :=
  ∀ r ∈ a.pending, ∀ w ∈ all, w.id = r.id → w.relation?.isSome

theorem Keeps.apart (h : Keeps bound all vars Inv V) (hw : WellPlaced all) {a : Assignment} (hi : Inv a) :
    WaitsApart all a := by
  intro r hr w hwa hid
  rw [hw.unique hwa (h.pending a hi r hr) hid]
  rfl

/-- The content of a variable, which for a relation is the slot of a cell that it has. -/
structure Recorded (w : Variable) (a : Assignment) (content : Content) : Prop where
  content : a.content? w.id = some content
  cell : w.relation?.isSome → (a.cell? w.id).isSome

/-- A variable is recorded as long as nothing is added for it. -/
theorem Recorded.extends {w : Variable} {a b : Assignment} {content : Content} (h : Recorded w a content)
    (hw : w ∈ all) (hp : WaitsApart all a) {vars : List Variable} (he : Extends vars a b)
    (hid : w.id ∉ vars.map (·.id)) : Recorded w b content := by
  cases hr : w.relation? with
  | some r =>
    have hs : w.relation?.isSome := by rw [hr]; rfl
    have hcell := he.cells w.id hid (h.cell hs)
    refine ⟨?_, fun _ => hcell⟩
    rw [content?_of_cell? hcell, ← content?_of_cell? (h.cell hs), h.content]
  | none =>
    refine ⟨?_, fun hs => by rw [hr] at hs; cases hs⟩
    rw [he.grows.content?_eq, h.content]
    intro hm
    rcases List.mem_append.mp hm with hm | hm
    · exact hid hm
    · obtain ⟨q, hq, hqid⟩ := List.mem_map.mp hm
      have := hp q hq w hw hqid.symm
      rw [hr] at this
      cases this

/--
A run from `a` to `b` that follows a derivation, with the assignment `c` that it has reached just before its last step.
-/
structure Run (bound : Bindings) (maxRepeat : Nat) (Inv : Assignment → Prop) (V : VarId → BitString → Prop)
    (v : Variable) (a c b : Assignment) (d : Derivation) : Prop where
  inv : Inv c
  last : LastStep bound v c b
  extended : Extends v.preorder a b
  fits : Fits (MadeLeaf bound b) (CountsTo bound maxRepeat) v d
  content : ∃ content, Recorded v b content ∧ Atom.Resolves V d.atoms content.atoms

/-- Runs of all children of a sequence one after the other. -/
structure RunAll (bound : Bindings) (maxRepeat : Nat) (Inv : Assignment → Prop) (V : VarId → BitString → Prop)
    (children : List Variable) (a b : Assignment) (parts : List Derivation) : Prop where
  inv : Inv b
  extended : Extends (preorderAll children) a b
  fits : FitsAll (MadeLeaf bound b) (CountsTo bound maxRepeat) children parts
  contents : ∃ contents, List.Forall₂ (fun c content => Recorded c b content) children contents ∧
    Atom.Resolves V (Derivation.atomsAll parts).flatten (contents.flatMap Content.atoms)

/-- Runs of a child as often as it is repeated, behind the content of what came before. -/
structure RunTimes (bound : Bindings) (maxRepeat : Nat) (Inv : Assignment → Prop) (V : VarId → BitString → Prop)
    (child : Variable) (delimiter : Option BitString) (k : Nat) (isFirst : Bool) (before : Content) (a b : Assignment)
    (content : Content) (parts : List Derivation) : Prop where
  inv : Inv b
  extended : Extends child.preorder a b
  length : parts.length = k
  fits : ∀ part ∈ parts, Fits (MadeLeaf bound b) (CountsTo bound maxRepeat) child part
  content : ∃ atoms, content.atoms = before.atoms ++ atoms ∧
    Atom.Resolves V (Derivation.joined delimiter isFirst (Derivation.atomsAll parts)) atoms

/-- A variable is generated in runs, whatever property each last step below it preserves. -/
def HasRuns (ρ : Type) [RandomSource ρ] (limits : GenerationLimits) (all : List Variable) (v : Variable) : Prop :=
  ∀ {bound : Bindings} {Inv : Assignment → Prop} {V : VarId → BitString → Prop} {a : Assignment},
    Keeps bound all (preorderAll v.children) Inv V → Inv a →
      Yields (ρ := ρ) bound (generate limits v a)
        (IfSome fun b => ∃ c d, Run bound limits.maxRepeat Inv V v a c b d)

/-! ## Last steps -/

section Last

variable {a b : Assignment}

/-- What has no relation at its place stays recorded while relations settle. -/
theorem recorded_of_settled {w : Variable} (hw : w ∈ all) (hr : w.relation? = none) (hp : WaitsApart all a)
    {content : Content} (hs : Settled (a.record w.id content) b) : Recorded w b content := by
  refine ⟨?_, fun h => by rw [hr] at h; cases h⟩
  rw [hs.1.grows.content?_eq]
  · unfold content? entry? record
    rw [List.lookup_cons, BEq.rfl]
    rfl
  · intro hm
    obtain ⟨q, hq, hid⟩ := List.mem_map.mp hm
    have := hp q hq w hw hid.symm
    rw [hr] at this
    cases this

end Last

/-! ## Whole runs -/

section Runs

variable {a b : Assignment}

/-- The places of all children that are recorded. -/
theorem filterMap_content? {children : List Variable} {contents : List Content}
    (h : List.Forall₂ (fun c content => Recorded c a content) children contents) :
    children.filterMap (fun c => a.content? c.id) = contents := by
  induction h with
  | nil => rfl
  | cons hc _ ih => rw [List.filterMap_cons, hc.content, ih]

/-- A node is recorded from its children with the values of settled relations in their places. -/
theorem compose_recorded {v : Variable} (hv : v ∈ all) (hr : v.relation? = none) (hp : WaitsApart all a)
    (values : ∀ id bits, a.isPending id = false → a.cell? id = some (.known bits) → V id bits)
    {children : List Variable} {contents : List Content}
    (hc : List.Forall₂ (fun c content => Recorded c a content) children contents) {atoms : List Atom}
    (ha : Atom.Resolves V atoms (contents.flatMap Content.atoms))
    (hs : Settled (a.record v.id ((children.filterMap fun c => a.content? c.id).foldl
      (fun content c => content.append (a.freeze c)) .empty)) b) :
    ∃ content, Recorded v b content ∧ Atom.Resolves V atoms content.atoms := by
  refine ⟨_, recorded_of_settled hv hr hp hs, ?_⟩
  rw [filterMap_content? hc, atoms_foldl_freeze, Content.atoms_empty, List.nil_append, ← List.flatMap_assoc]
  exact freeze_resolves ha values

/-- Runs of a child and of those after it make up a run of them all. -/
theorem Run.cons {v : Variable} {more : List Variable} (hv : v ∈ all)
    (hid : v.id ∉ idsOf more) {maxRepeat : Nat} {c e : Assignment} {d : Derivation} {parts : List Derivation}
    (hp : WaitsApart all b) (run : Run bound maxRepeat Inv V v a c b d)
    (rest : RunAll bound maxRepeat Inv V more b e parts) : RunAll bound maxRepeat Inv V (v :: more) a e (d :: parts) := by
  obtain ⟨content, hcontent, hatoms⟩ := run.content
  obtain ⟨contents, hcontents, hrest⟩ := rest.contents
  have later : v.id ∉ (preorderAll more).map (·.id) := by
    change v.id ∉ (preorderAll more).map Variable.id
    rw [map_id_preorderAll]
    exact hid
  refine ⟨rest.inv, ?_, ⟨d, parts, rfl, run.fits.grows rest.extended.grows, rest.fits⟩, content :: contents, ?_, ?_⟩
  · exact run.extended.trans rest.extended (List.subset_append_left _ _) (List.subset_append_right _ _)
  · exact .cons (hcontent.extends hv hp rest.extended later) hcontents
  · exact hatoms.append hrest

theorem generateAll_runs (hw : WellPlaced all) {children : List Variable} (hc : preorderAll children ⊆ all)
    (separate : children.Pairwise fun c d => c.id ∉ d.ids) (one : ∀ c ∈ children, HasRuns ρ limits all c)
    (keeps : Keeps bound all (preorderAll children) Inv V) (hi : Inv a) :
    Yields (ρ := ρ) bound (generateAll limits children a)
      (IfSome fun b => ∃ parts, RunAll bound limits.maxRepeat Inv V children a b parts) := by
  induction children generalizing a with
  | nil => exact Yields.pure (.some ⟨[], hi, .refl _ a, rfl, [], .nil, .nil⟩)
  | cons v more ih =>
    obtain ⟨hv, hmore⟩ := List.append_subset.mp hc
    obtain ⟨apart, separate⟩ := List.pairwise_cons.mp separate
    have below : preorderAll v.children ⊆ preorderAll (v :: more) := fun w h =>
      List.mem_append_left _ (children_subset_preorder v h)
    rw [generateAll]
    refine (one v List.mem_cons_self (keeps.mono below) hi).bind fun x hx => ?_
    cases x with
    | none => exact Yields.pure .none
    | some b =>
      obtain ⟨c, d, run⟩ := hx b rfl
      have hb : Inv b := keeps.step v (List.mem_append_left _ v.self_mem_preorder) c b run.inv run.last
      refine (ih hmore separate (fun c hc => one c (List.mem_cons_of_mem _ hc))
        (keeps.mono (List.subset_append_right _ _)) hb).mono fun y hy e he => ?_
      obtain ⟨parts, rest⟩ := hy e he
      refine ⟨d :: parts, run.cons (hv v.self_mem_preorder) (fun hm => ?_) (keeps.apart hw hb) rest⟩
      obtain ⟨c, hc, hid⟩ := mem_idsOf.mp hm
      exact apart c hc hid

theorem generateNth_runs {children : List Variable} (one : ∀ c ∈ children, HasRuns ρ limits all c)
    (keeps : Keeps bound all (preorderAll children) Inv V) (hi : Inv a) (index : Nat) :
    Yields (ρ := ρ) bound (generateNth limits children index a) (IfSome fun b => ∃ v c d,
      children[index]? = some v ∧ Run bound limits.maxRepeat Inv V v a c b d) := by
  induction children generalizing index with
  | nil => exact Yields.pure .none
  | cons v more ih =>
    cases index with
    | zero =>
      rw [generateNth]
      have below : preorderAll v.children ⊆ preorderAll (v :: more) := fun w h =>
        List.mem_append_left _ (children_subset_preorder v h)
      refine (one v List.mem_cons_self (keeps.mono below) hi).mono fun x hx b hb => ?_
      obtain ⟨c, d, run⟩ := hx b hb
      exact ⟨v, c, d, rfl, run⟩
    | succ index =>
      rw [generateNth]
      exact ih (fun c hc => one c (List.mem_cons_of_mem _ hc)) (keeps.mono (List.subset_append_right _ _)) index

/-- The content before an instance and the delimiter behind it. -/
theorem atoms_delimited (delimiter : Option BitString) (isFirst : Bool) (content : Content) :
    (if isFirst then content else delimiter.elim content content.pushBits).atoms =
      content.atoms ++ Derivation.delimiterAtoms delimiter isFirst := by
  unfold Derivation.delimiterAtoms
  cases isFirst with
  | true => exact (List.append_nil _).symm
  | false =>
    cases delimiter with
    | none => exact (List.append_nil _).symm
    | some d => exact Content.atoms_pushBits content d

theorem instances_runs {child : Variable} (one : HasRuns ρ limits all child)
    (keeps : Keeps bound all child.preorder Inv V) (hi : Inv a) (delimiter : Option BitString) (k : Nat) (isFirst : Bool)
    (content : Content) :
    Yields (ρ := ρ) bound (instances (generate limits child) child delimiter k isFirst a content)
      (IfSome fun p => ∃ parts,
        RunTimes bound limits.maxRepeat Inv V child delimiter k isFirst content a p.1 p.2 parts) := by
  induction k generalizing isFirst a content with
  | zero =>
    refine Yields.pure (.some ⟨[], hi, .refl _ a, rfl, by simp, [], (List.append_nil _).symm, .nil⟩)
  | succ k ih =>
    rw [instances]
    refine (one (keeps.mono (children_subset_preorder child)) hi).bind fun x hx => ?_
    cases x with
    | none => exact Yields.pure .none
    | some b =>
      obtain ⟨c, d, run⟩ := hx b rfl
      have hb : Inv b := keeps.step child child.self_mem_preorder c b run.inv run.last
      obtain ⟨own, hown, hatoms⟩ := run.content
      dsimp only
      rw [hown.content]
      refine (ih hb false _).mono fun y hy p hy' => ?_
      obtain ⟨parts, rest⟩ := hy p hy'
      obtain ⟨atoms, heq, hres⟩ := rest.content
      refine ⟨d :: parts, rest.inv, ?_, ?_, ?_,
        Derivation.delimiterAtoms delimiter isFirst ++ own.atoms.flatMap b.settleAtom ++ atoms, ?_, ?_⟩
      · exact run.extended.trans rest.extended (List.Subset.refl _) (List.Subset.refl _)
      · rw [List.length_cons, rest.length]
      · exact List.forall_mem_cons.mpr ⟨run.fits.grows rest.extended.grows, rest.fits⟩
      · rw [heq, Content.atoms_append, atoms_delimited, atoms_freeze]
        simp only [List.append_assoc]
      · rw [Derivation.atomsAll, Derivation.joined]
        exact ((Atom.Resolves.refl _).append (freeze_resolves hatoms (keeps.values b hb))).append hres

/-- A variable is generated in runs. -/
theorem generate_runs (hw : WellPlaced all) (v : Variable) (hv : v.preorder ⊆ all) : HasRuns ρ limits all v := by
  induction v using Variable.induct with
  | data id name type scope =>
    intro bound Inv V a keeps hi
    rw [generate]
    refine (generateData_yields (keeps.distinct a hi) id name type scope).mono fun x hx b hb => ?_
    have last := hx b hb
    obtain ⟨made, hm, h⟩ := last
    cases hm with
    | node hn => cases hn
    | @data _ _ _ _ _ c value hvalue =>
      have last : LastStep bound (.data id name type scope) a b := ⟨_, .data hvalue, h⟩
      have hc : WaitsApart all c := fun r hr => keeps.apart hw hi r (hvalue.kept.2 ▸ hr)
      refine ⟨a, .leaf value, hi, last, last.extends, ⟨value, rfl, ?_⟩, .ofBits value, ?_, ?_⟩
      · exact (hvalue.made.grows ((Grows.refl [id] c).record List.mem_cons_self _)).grows h.1.grows
      · exact recorded_of_settled (hv (self_mem_preorder _)) rfl hc h
      · rw [Derivation.atoms, Content.atoms_ofBits]
        exact .refl _
  | relation r =>
    intro bound Inv V a keeps hi
    rw [generate]
    refine (generateRelation_yields (keeps.distinct a hi) r).mono fun x hx b hb => ?_
    have last := hx b hb
    have cell : (b.cell? r.id).isSome := last.isSome_cell?
    exact ⟨a, .relation r.id, hi, last, last.extends, rfl, .slot r.id, ⟨content?_of_cell? cell, fun _ => cell⟩, .refl _⟩
  | choice id name children ih =>
    intro bound Inv V a keeps hi
    have hc : preorderAll children ⊆ all := fun w h => hv (List.mem_cons_of_mem _ h)
    rw [generate]
    refine (pickChild_yields id children.length).bind fun index _ => ?_
    refine (generateNth_runs (fun c h => ih c h fun w hw => hc (preorder_subset_of_mem h hw)) keeps
      hi index).bind fun x hx => ?_
    cases x with
    | none => exact Yields.pure .none
    | some b =>
      obtain ⟨w, c, d, hindex, run⟩ := hx b rfl
      have hmem := List.mem_of_getElem? hindex
      have hb : Inv b := keeps.step w (preorder_subset_of_mem hmem w.self_mem_preorder) c b run.inv run.last
      obtain ⟨own, hown, hatoms⟩ := run.content
      rw [hindex]
      refine (compose_yields (keeps.distinct b hb) id [w]).bind fun e he => Yields.pure (.some ?_)
      have last : LastStep bound (.choice id name children) b e := ⟨_, .node rfl, he⟩
      refine ⟨b, .choice index d, hb, last, ?_, ?_, ?_⟩
      · refine run.extended.trans last.extends (fun x hx => ?_) (List.Subset.refl _)
        exact List.mem_cons_of_mem _ (preorder_subset_of_mem hmem hx)
      · exact ⟨index, d, rfl, fitsNth_iff.mpr ⟨w, hindex, run.fits.grows last.extends.grows⟩⟩
      · refine compose_recorded (v := .choice id name children) (hv (self_mem_preorder _)) rfl
          (keeps.apart hw hb) (keeps.values b hb) (.cons hown .nil) ?_ he
        rw [Derivation.atoms, List.flatMap_singleton]
        exact hatoms
  | sequence id name children ih =>
    intro bound Inv V a keeps hi
    have hc : preorderAll children ⊆ all := fun w h => hv (List.mem_cons_of_mem _ h)
    rw [generate]
    refine (generateAll_runs hw hc (hw.separate (hv (self_mem_preorder _)))
      (fun c h => ih c h fun w hw => hc (preorder_subset_of_mem h hw)) keeps hi).bind fun x hx => ?_
    cases x with
    | none => exact Yields.pure .none
    | some b =>
      obtain ⟨parts, run⟩ := hx b rfl
      have hb := run.inv
      refine (compose_yields (keeps.distinct b hb) id children).bind fun e he => Yields.pure (.some ?_)
      obtain ⟨contents, hcontents, hatoms⟩ := run.contents
      have last : LastStep bound (.sequence id name children) b e := ⟨_, .node rfl, he⟩
      refine ⟨b, .sequence parts, hb, last, ?_, ⟨parts, rfl, ?_⟩, ?_⟩
      · exact run.extended.trans last.extends (List.subset_cons_self _ _) (List.Subset.refl _)
      · exact fitsAll_mono (fun _ _ _ hd => hd.grows last.extends.grows) run.fits
      · rw [Derivation.atoms]
        exact compose_recorded (v := .sequence id name children) (hv (self_mem_preorder _)) rfl
          (keeps.apart hw hb) (keeps.values b hb) hcontents hatoms he
  | repetition id name child count delimiter ih =>
    intro bound Inv V a keeps hi
    have hc : child.preorder ⊆ all := fun w h => hv (List.mem_cons_of_mem _ h)
    have keeps : Keeps bound all child.preorder Inv V := keeps.mono (by
      rw [children, preorderAll, preorderAll, List.append_nil]
      exact List.Subset.refl _)
    rw [generate]
    refine (pickCount_yields id count (hw.counted (hv (self_mem_preorder _)))).bind fun k hk => ?_
    refine (instances_runs (ih hc) keeps hi delimiter k true .empty).bind fun x hx => ?_
    cases x with
    | none => exact Yields.pure .none
    | some p =>
      obtain ⟨b, content⟩ := p
      obtain ⟨parts, run⟩ := hx _ rfl
      have hb := run.inv
      have kept : (b.record id content).Distinct := keeps.distinct b hb
      refine (settled_yields _ kept).bind fun e he => Yields.pure (.some ?_)
      have last : LastStep bound (.repetition id name child count delimiter) b e := ⟨_, .node rfl, he⟩
      refine ⟨b, .repetition delimiter parts, hb, last, ?_, ⟨parts, rfl, ?_, fun part hpart => ?_⟩, content, ?_, ?_⟩
      · exact run.extended.trans last.extends (List.subset_cons_self _ _) (List.Subset.refl _)
      · rw [run.length]
        exact hk
      · exact (run.fits part hpart).grows last.extends.grows
      · exact recorded_of_settled (w := .repetition id name child count delimiter) (hv (self_mem_preorder _)) rfl
          (keeps.apart hw hb) he
      · obtain ⟨atoms, heq, hres⟩ := run.content
        rw [heq, Derivation.atoms]
        exact hres

end Runs

end Generation

end WireGrammar
