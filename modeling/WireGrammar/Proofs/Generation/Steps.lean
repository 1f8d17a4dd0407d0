import Mathlib.Data.List.Basic
import WireGrammar.Proofs.Generation.Settling
import WireGrammar.Proofs.Interpretation.Steps

/-!
# Steps of generation

Generation of a variable ends with one step, which records it and settles what can be settled (`LastStep`); before
that its children are generated. Here is what each computation of the model returns, given which leaves have a mutator,
in terms of these steps (`generateData_yields`, `generateRelation_yields`, `compose_yields`, `pickCount_yields`), and
what a step adds to an assignment (`LastStep.extends`).
-/

namespace WireGrammar

namespace Assignment

variable {a b : Assignment} {bound : Bindings}

/--
A data leaf gets the value that it has already, or a fresh one that its type accepts; where it has a mutator, any value.
-/
inductive LeafValue (bound : Bindings) (id : VarId) (type : DataType) (scope : Scope) (a : Assignment) :
    BitString → Assignment → Prop where
  | replay {value : BitString} (h : a.replayed? id type scope = some value) : LeafValue bound id type scope a value a
  | fresh {value : BitString} (h : a.replayed? id type scope = none) (hs : scope ≠ .constant)
    (ha : type.accepts value = true) : LeafValue bound id type scope a value (a.learnFresh scope id value)
  | mutated {value : BitString} {b : Assignment} (hm : bound.has id = true) (hb : b = a ∨ ∃ normal, b = a.learn id normal) :
    LeafValue bound id type scope a value b

/-- The record that is made of a variable when its children have been generated. -/
inductive Makes (bound : Bindings) : Variable → Assignment → Assignment → Prop where
  | data {id : VarId} {name : String} {type : DataType} {scope : Scope} {a b : Assignment} {value : BitString}
    (hv : LeafValue bound id type scope a value b) : Makes bound (.data id name type scope) a (b.record id (.ofBits value))
  | mutated {r : Relation} {a : Assignment} {bits : BitString} (hm : bound.has r.id = true) :
    Makes bound (.relation r) a (a.setCell r.id (.known bits))
  | ready {r : Relation} {a : Assignment} {bits : BitString} (hm : bound.has r.id = false) (hc : r.Computes a bits) :
    Makes bound (.relation r) a (a.setCell r.id (.known bits))
  | wait {r : Relation} {a : Assignment} (hm : bound.has r.id = false) (hw : r.evaluate a = .ok .waiting) :
    Makes bound (.relation r) a ((a.setCell r.id (.awaited (Generation.announcedLength? r))).awaitRelation r)
  | node {v : Variable} {a : Assignment} {content : Content} (hv : v.isNode = true) :
    Makes bound v a (a.record v.id content)

/-- The step with which the generation of a variable ends: it is recorded, and relations are settled. -/
def LastStep (bound : Bindings) (v : Variable) (a b : Assignment) : Prop :=
  ∃ made, Makes bound v a made ∧ Settled made b

theorem LeafValue.grows {id : VarId} {type : DataType} {scope : Scope} {value : BitString}
    (h : LeafValue bound id type scope a value b) : Grows [id] a b := by
  cases h with
  | replay h => exact Grows.refl _ a
  | fresh h hs ha => exact (Grows.refl _ a).learnFresh List.mem_cons_self _ _
  | mutated hm hb =>
    rcases hb with rfl | ⟨normal, rfl⟩
    · exact Grows.refl _ _
    · exact (Grows.refl _ a).learn List.mem_cons_self _

/-- To find a value for a leaf records nothing. -/
theorem LeafValue.kept {id : VarId} {type : DataType} {scope : Scope} {value : BitString}
    (h : LeafValue bound id type scope a value b) : b.entries = a.entries ∧ b.pending = a.pending := by
  cases h with
  | replay h => exact ⟨rfl, rfl⟩
  | fresh h hs ha =>
    unfold learnFresh
    split <;> exact ⟨rfl, rfl⟩
  | mutated hm hb => rcases hb with rfl | ⟨normal, rfl⟩ <;> exact ⟨rfl, rfl⟩

/-- The normal value of a leaf is learned, or nothing is. -/
theorem LeafValue.learned {id : VarId} {type : DataType} {scope : Scope} {value : BitString}
    (h : LeafValue bound id type scope a value b) : b = a ∨ ∃ normal, b = a.learn id normal := by
  cases h with
  | replay h => exact Or.inl rfl
  | fresh h hs ha =>
    unfold learnFresh
    split
    · exact Or.inl rfl
    · exact Or.inr ⟨_, rfl⟩
  | mutated hm hb => exact hb

theorem Distinct.awaitRelation (h : a.Distinct) (r : Relation) : (a.awaitRelation r).Distinct := by
  unfold Assignment.awaitRelation
  split
  · exact h
  next hp =>
    refine (List.map_append ▸ List.nodup_append.mpr ⟨h, List.nodup_singleton _, fun id hid other ho he => hp ?_⟩ :
      ((a.pending ++ [r]).map (·.id)).Nodup)
    obtain ⟨q, hq, rfl⟩ := List.mem_map.mp hid
    rw [List.map_singleton, List.mem_singleton] at ho
    exact List.any_eq_true.mpr ⟨q, hq, beq_iff_eq.mpr (he.trans ho)⟩

/--
What generation of some variables may add: records and values of them, and values of relations that wait. What is a
relation stays one.
-/
structure Extends (vars : List Variable) (a b : Assignment) : Prop where
  grows : Grows (vars.map (·.id) ++ a.pending.map (·.id)) a b
  pending : ∀ r ∈ b.pending, r ∈ a.pending ∨ .relation r ∈ vars
  cells : ∀ id, id ∉ vars.map (·.id) → (a.cell? id).isSome → (b.cell? id).isSome

namespace Extends

variable {xs ys zs : List Variable} {c : Assignment}

theorem refl (xs : List Variable) (a : Assignment) : Extends xs a a :=
  ⟨Grows.refl _ a, fun _ hr => Or.inl hr, fun _ _ h => h⟩

theorem trans (h₁ : Extends xs a b) (h₂ : Extends ys b c) (hx : xs ⊆ zs) (hy : ys ⊆ zs) : Extends zs a c := by
  have hxs : xs.map (·.id) ⊆ zs.map (·.id) := List.map_subset _ hx
  have hys : ys.map (·.id) ⊆ zs.map (·.id) := List.map_subset _ hy
  refine ⟨(h₁.grows.mono fun i hi => ?_).trans (h₂.grows.mono fun i hi => ?_), fun r hr => ?_, fun id hid h => ?_⟩
  · exact (List.mem_append.mp hi).elim (fun hi => List.mem_append_left _ (hxs hi)) (List.mem_append_right _)
  · rcases List.mem_append.mp hi with hi | hi
    · exact List.mem_append_left _ (hys hi)
    · obtain ⟨r, hr, rfl⟩ := List.mem_map.mp hi
      rcases h₁.pending r hr with hr | hr
      · exact List.mem_append_right _ (List.mem_map_of_mem hr)
      · exact List.mem_append_left _ (hxs (List.mem_map_of_mem (f := fun v : Variable => v.id) hr))
  · rcases h₂.pending r hr with hr | hr
    · exact (h₁.pending r hr).imp_right fun hr => hx hr
    · exact Or.inr (hy hr)
  · exact h₂.cells id (fun hi => hid (hys hi)) (h₁.cells id (fun hi => hid (hxs hi)) h)

theorem mono (h : Extends xs a b) (hx : xs ⊆ zs) : Extends zs a b :=
  h.trans (refl zs b) hx (List.Subset.refl zs)

end Extends

theorem Settles.isSome_cell? (h : Settles a b) {id : VarId} (hc : (a.cell? id).isSome) :
    (b.cell? id).isSome := by
  induction h with
  | refl => exact hc
  | @fill a b r bits _ _ _ ih =>
    refine ih ?_
    change ((a.setCell r.id (.known bits)).cell? id).isSome
    rw [cell?_setCell]
    split
    · rfl
    · exact hc

/-- The record of a variable adds no more than the variable itself. -/
theorem Makes.grows {v : Variable} (h : Makes bound v a b) : Grows [v.id] a b := by
  have own {v : Variable} : v.id ∈ [v.id] := List.mem_cons_self
  cases h with
  | data hv => exact hv.grows.record List.mem_cons_self _
  | @mutated r | @ready r => exact (Grows.refl _ a).setCell (own (v := .relation r)) _
  | @wait r => exact ((Grows.refl _ a).setCell (own (v := .relation r)) _).awaitRelation r
  | node hv => exact (Grows.refl _ a).record own _

theorem Makes.pending {v : Variable} (h : Makes bound v a b) : ∀ r ∈ b.pending, r ∈ a.pending ∨ .relation r = v := by
  intro q hq
  cases h with
  | data hv => exact Or.inl (hv.kept.2 ▸ hq)
  | mutated | ready | node => exact Or.inl hq
  | @wait r =>
    refine (List.mem_append.mp (pending_awaitRelation r hq)).imp_right fun hq => ?_
    rw [List.mem_singleton.mp hq]

/-- The last step adds no more than the variable itself. -/
theorem LastStep.extends {v : Variable} (h : LastStep bound v a b) : Extends v.preorder a b := by
  obtain ⟨made, hm, hs⟩ := h
  have own : [v.id] ⊆ v.preorder.map (·.id) := List.cons_subset.mpr ⟨v.id_mem_ids, List.nil_subset _⟩
  have pending : ∀ r ∈ made.pending, r ∈ a.pending ∨ .relation r ∈ v.preorder := fun r hr =>
    (hm.pending r hr).imp_right fun he => by rw [he]; exact v.self_mem_preorder
  refine ⟨(hm.grows.mono (List.subset_append_of_subset_left _ own)).trans (hs.1.grows.mono fun i hi => ?_),
    fun r hr => pending r (hs.1.pending_sublist.subset hr), fun id hid h => hs.1.isSome_cell? ?_⟩
  · obtain ⟨r, hr, rfl⟩ := List.mem_map.mp hi
    rcases pending r hr with hr | hr
    · exact List.mem_append_right _ (List.mem_map_of_mem hr)
    · exact List.mem_append_left _ (List.mem_map_of_mem (f := fun v : Variable => v.id) hr)
  · rwa [hm.grows.cell?_eq fun hi => hid (own hi)]

/-- The last step of a relation gives it a cell. -/
theorem LastStep.isSome_cell? {r : Relation} (h : LastStep bound (.relation r) a b) : (b.cell? r.id).isSome := by
  obtain ⟨made, hm, hs⟩ := h
  refine hs.1.isSome_cell? ?_
  cases hm with
  | node hn => cases hn
  | mutated | ready => rw [cell?_setCell, if_pos rfl]; rfl
  | wait => rw [cell?_awaitRelation, cell?_setCell, if_pos rfl]; rfl

end Assignment

namespace Generation

open Assignment

variable {ρ : Type} [RandomSource ρ] {limits : GenerationLimits} {a : Assignment} {bound : Bindings}

/-- A condition on a result that may be missing: what is there satisfies it. -/
def IfSome {α : Type} (P : α → Prop) (x : Option α) : Prop :=
  ∀ y, x = some y → P y

theorem IfSome.none {α : Type} {P : α → Prop} : IfSome P none :=
  fun _ h => nomatch h

theorem IfSome.some {α : Type} {P : α → Prop} {x : α} (h : P x) : IfSome P (some x) := by
  rintro y hy
  cases hy
  exact h

theorem leafValue_yields (id : VarId) (type : DataType) (scope : Scope) :
    Yields (ρ := ρ) bound (leafValue limits id type scope a)
      (IfSome fun p => LeafValue bound id type scope a p.1 p.2) := by
  have drawn : Yields (ρ := ρ) bound (fromSource (type.draw limits.capBits)) (type.accepts · = true) :=
    fromSource_yields (DataType.draw_accepts type limits.capBits)
  unfold leafValue
  dsimp only
  split
  next value h => exact Yields.pure (.some (.replay h))
  next h => exact Yields.pure .none
  next h => exact drawn.bind fun value hv => Yields.pure (.some (.fresh h (by decide) hv))
  next hc hs h =>
    refine drawn.bind fun value hv => Yields.pure (.some ?_)
    have fresh : Assignment.LeafValue bound .. := .fresh h hc hv
    rwa [learnFresh, if_neg hs] at fresh

theorem mutatedValue_yields (id : VarId) (type : DataType) (scope : Scope) :
    Yields (ρ := ρ) bound (mutatedValue limits id type scope a)
      (IfSome fun p => LeafValue bound id type scope a p.1 p.2) := by
  refine (mode?_yields id).bind fun mode hm => ?_
  cases mode with
  | none => exact leafValue_yields id type scope
  | some mode =>
    cases mode with
    | mutate =>
      refine (leafValue_yields id type scope).bind fun p hp => ?_
      cases p with
      | none => exact Yields.pure .none
      | some p =>
        refine (fromLeaf?_yields id _).bind fun value _ => Yields.pure (.some ?_)
        exact .mutated hm.symm (hp p rfl).learned
    | generate | fixed =>
      refine (fromLeaf?_yields id _).bind fun value _ => ?_
      cases value with
      | some value => exact Yields.pure (.some (.mutated hm.symm (Or.inl rfl)))
      | none =>
        refine (fromSource_yields (Draws.any _)).bind fun value _ => ?_
        exact Yields.pure (.some (.mutated hm.symm (Or.inl rfl)))

theorem generateData_yields (hd : a.Distinct) (id : VarId) (name : String) (type : DataType) (scope : Scope) :
    Yields (ρ := ρ) bound (generateData limits id type scope a)
      (IfSome fun b => LastStep bound (.data id name type scope) a b) := by
  refine (mutatedValue_yields id type scope).bind fun p hp => ?_
  cases p with
  | none => exact Yields.pure .none
  | some p =>
    have kept : (p.2.record id (.ofBits p.1)).Distinct := hd.sublist ((hp p rfl).kept.2 ▸ List.Sublist.refl _)
    exact (settled_yields _ kept).bind fun b hb => Yields.pure (.some ⟨_, .data (hp p rfl), hb⟩)

/-- A relation is given a value by its mutator if it has one, and otherwise computed as far as possible. -/
theorem generateRelation_returns {J : Option Mutators → Prop} {r : Relation}
    (hm : Returns (ρ := ρ) J (fromLeaf? r.id (·.generate r.type)) (·.isSome = bound.has r.id)) (hd : a.Distinct) :
    Returns (ρ := ρ) J (generateRelation r a) (IfSome fun b => LastStep bound (.relation r) a b) := by
  have known (bits : BitString) : (a.setCell r.id (.known bits)).Distinct := hd
  have waiting (cell : Cell) : ((a.setCell r.id cell).awaitRelation r).Distinct :=
    Distinct.awaitRelation (a := a.setCell r.id cell) hd r
  refine hm.bind fun value hv => ?_
  cases value with
  | some bits => exact (settled_returns _ (known bits)).bind fun b hb => Returns.pure (.some ⟨_, .mutated hv.symm, hb⟩)
  | none =>
    have hm : bound.has r.id = false := hv.symm
    dsimp only
    split
    next e h => exact Returns.throw _
    next bits h =>
      exact (settled_returns _ (known bits)).bind fun b hb => Returns.pure (.some ⟨_, .ready hm (Or.inl h), hb⟩)
    next n h =>
      refine (fromSource_returns (length_drawFill r n)).bind fun bits hn => ?_
      exact (settled_returns _ (known bits)).bind fun b hb => Returns.pure (.some ⟨_, .ready hm (Or.inr ⟨n, h, hn⟩), hb⟩)
    next h => exact (settled_returns _ (waiting _)).bind fun b hb => Returns.pure (.some ⟨_, .wait hm h, hb⟩)

theorem generateRelation_yields (hd : a.Distinct) (r : Relation) :
    Yields (ρ := ρ) bound (generateRelation r a) (IfSome fun b => LastStep bound (.relation r) a b) :=
  yields_iff_returns.mpr (generateRelation_returns (fromLeaf?_yields r.id _) hd)

theorem compose_yields (hd : a.Distinct) (id : VarId) (children : List Variable) :
    Yields (ρ := ρ) bound (compose id children a) fun b =>
      Settled (a.record id ((children.filterMap fun child => a.content? child.id).foldl
        (fun content c => content.append (a.freeze c)) .empty)) b :=
  settled_yields _ hd

section Picks

variable {J : Option Mutators → Prop} (hJ : ∀ {m next : Mutators}, next.leaves = m.leaves → J (some m) → J (some next))

include hJ

/-- To pick the child of a choice leaves the mutators of leaves alone. -/
theorem pickChild_returns (id : VarId) (children : Nat) : Returns (ρ := ρ) J (pickChild id children) fun _ => True := by
  have picked : Returns (ρ := ρ) J (fromMutators? (·.pickChild? id children)) fun _ => True := by
    exact fromMutators?_returns (fun _ => trivial) fun m hm =>
      ⟨fun _ => trivial, fun result next h => ⟨hJ (Mutators.leaves_pickChild? h) hm, fun _ _ => trivial⟩⟩
  refine picked.bind fun index _ => ?_
  cases index with
  | some index => exact Returns.pure trivial
  | none => exact fromSource_returns (Draws.any _)

/-- To pick a count leaves the mutators of leaves alone. -/
theorem pickCount_returns (id : VarId) (count : RepeatCount) :
    Returns (ρ := ρ) J (pickCount limits id count) fun _ => True := by
  have picked : Returns (ρ := ρ) J (fromMutators? (·.pickCount? id)) fun _ => True := by
    exact fromMutators?_returns (fun _ => trivial) fun m hm =>
      ⟨fun _ => trivial, fun result next h => ⟨hJ (Mutators.leaves_pickCount? h) hm, fun _ _ => trivial⟩⟩
  refine picked.bind fun n _ => ?_
  cases n with
  | some n => exact Returns.pure trivial
  | none => exact fromSource_returns (Draws.any _)

end Picks

theorem pickChild_yields (id : VarId) (children : Nat) :
    Yields (ρ := ρ) bound (pickChild id children) fun _ => True :=
  yields_iff_returns.mpr
    (pickChild_returns (fun h hm => (congrArg some (Mutators.hasLeaf_congr h)).trans hm) id children)

/-- Without mutators a count is one that the repetition may have. -/
theorem pickCount_yields (id : VarId) (count : RepeatCount) (h : count.least < count.stop) :
    Yields (ρ := ρ) bound (pickCount limits id count) fun k => bound = none →
      count.least ≤ k ∧ k < min count.stop (max limits.maxRepeat (count.least + 1)) := by
  have picked : Yields (ρ := ρ) bound (fromMutators? (·.pickCount? id)) fun n => bound = none → n = none := by
    refine fromMutators?_yields (fun _ _ => rfl) fun m hm => ⟨fun _ _ => rfl, fun result next h =>
      ⟨Mutators.hasLeaf_congr (Mutators.leaves_pickCount? h), fun _ hn => ?_⟩⟩
    rw [hm] at hn
    cases hn
  refine picked.bind fun n hn => ?_
  cases n with
  | some n => exact Yields.pure fun hb => nomatch hn hb
  | none => exact (fromSource_yields (RandomSource.countBelow_mem (by omega))).mono fun _ hk _ => hk

end Generation

end WireGrammar
