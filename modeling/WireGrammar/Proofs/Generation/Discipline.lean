import WireGrammar.Message
import WireGrammar.Proofs.Assignment.Discipline
import WireGrammar.Proofs.Generation.Steps

/-!
# Disciplines in generation

Generation keeps a discipline when it does so at leaves, at relations and where a node is recorded
(`Generates.generate_after`, `Generates.generateFields_after`).
-/

namespace WireGrammar

open Assignment Generation Variable

variable {ρ : Type} [RandomSource ρ] {limits : GenerationLimits} {a : Assignment}

variable {D : Discipline} {J : Option Mutators → Prop} {vars : List Variable}

/-- Generation with mutators of some kind keeps a discipline at each of the given variables. -/
structure Generates (ρ : Type) [RandomSource ρ] (D : Discipline) (J : Option Mutators → Prop)
    (limits : GenerationLimits) (vars : List Variable) : Prop where
  data : ∀ {id name type scope a}, .data id name type scope ∈ vars → D.Inv a →
    Returns (ρ := ρ) J (generateData limits id type scope a) (IfSome (D.After (.data id name type scope) a))
  relation : ∀ {r a}, .relation r ∈ vars → D.Inv a →
    Returns (ρ := ρ) J (generateRelation r a) (IfSome (D.After (.relation r) a))
  node : ∀ {v a content}, v ∈ vars → v.isNode = true → D.Inv a → D.Fit a content →
    Returns (ρ := ρ) J (settled (a.record v.id content)) (D.After v a)
  /-- Of the mutators only those of leaves matter. -/
  leaves : ∀ {m next : Mutators}, next.leaves = m.leaves → J (some m) → J (some next)

namespace Generates

variable (h : Generates ρ D J limits vars)

/-- A variable is generated under the discipline. -/
def OnVariable (ρ : Type) [RandomSource ρ] (D : Discipline) (J : Option Mutators → Prop) (limits : GenerationLimits)
    (v : Variable) : Prop :=
  ∀ {a}, D.Inv a → Returns (ρ := ρ) J (generate limits v a) (IfSome (D.After v a))

theorem generateAll_after {children : List Variable} (one : ∀ c ∈ children, OnVariable ρ D J limits c) (hi : D.Inv a) :
    Returns (ρ := ρ) J (generateAll limits children a) (IfSome (D.AfterAll children a)) := by
  induction children generalizing a with
  | nil => exact Returns.pure (.some (.nil hi))
  | cons v more ih =>
    rw [generateAll]
    refine (one v List.mem_cons_self hi).bind fun x hx => ?_
    cases x with
    | none => exact Returns.pure .none
    | some b =>
      have hb := hx b rfl
      refine (ih (fun c hc => one c (List.mem_cons_of_mem _ hc)) hb.inv).mono fun y hy c hc => ?_
      exact hb.cons (hy c hc)

theorem generateNth_after {children : List Variable} (one : ∀ c ∈ children, OnVariable ρ D J limits c) (hi : D.Inv a)
    (index : Nat) : Returns (ρ := ρ) J (generateNth limits children index a)
      (IfSome fun b => ∃ v, children[index]? = some v ∧ D.After v a b) := by
  induction children generalizing index with
  | nil => exact Returns.pure .none
  | cons v more ih =>
    cases index with
    | zero =>
      rw [generateNth]
      exact (one v List.mem_cons_self hi).mono fun x hx b hb => ⟨v, rfl, hx b hb⟩
    | succ index =>
      rw [generateNth]
      exact ih (fun c hc => one c (List.mem_cons_of_mem _ hc)) index

theorem instances_after {child : Variable} (one : OnVariable ρ D J limits child) (hi : D.Inv a)
    (delimiter : Option BitString) (k : Nat) (isFirst : Bool) {content : Content} (hf : D.Fit a content) :
    Returns (ρ := ρ) J (instances (generate limits child) child delimiter k isFirst a content)
      (IfSome fun p => D.Inv p.1 ∧ D.Step a p.1 ∧ D.Fit p.1 p.2) := by
  induction k generalizing isFirst a content with
  | zero => exact Returns.pure (.some ⟨hi, D.refl a, hf⟩)
  | succ k ih =>
    have delimited : D.Fit a (if isFirst then content else delimiter.elim content content.pushBits) := by
      cases isFirst with
      | true => exact hf
      | false =>
        cases delimiter with
        | none => exact hf
        | some d => exact D.pushBits hf d
    rw [instances]
    refine (one hi).bind fun x hx => ?_
    cases x with
    | none => exact Returns.pure .none
    | some b =>
      have hb := hx b rfl
      dsimp only
      cases hc : b.content? child.id with
      | none => exact Returns.pure .none
      | some own =>
        refine (ih hb.inv false (D.append hb.inv (D.kept hb.step delimited) hc)).mono fun y hy p hp => ?_
        obtain ⟨hi', hs, hf'⟩ := hy p hp
        exact ⟨hi', D.trans hb.step hs, hf'⟩

include h

theorem compose_after {v : Variable} (hv : v ∈ vars) (hn : v.isNode = true) (hi : D.Inv a) (children : List Variable) :
    Returns (ρ := ρ) J (compose v.id children a) (D.After v a) := by
  refine h.node hv hn hi (D.fit_foldl hi (fun own hown => ?_) (D.empty a))
  obtain ⟨child, -, hc⟩ := List.mem_filterMap.mp hown
  exact ⟨child.id, hc⟩

/-- Generation of a variable keeps the discipline. -/
theorem generate_after (v : Variable) (hv : v.preorder ⊆ vars) : OnVariable ρ D J limits v := by
  induction v using Variable.induct with
  | data id name type scope =>
    intro a hi
    rw [generate]
    exact h.data (hv (self_mem_preorder _)) hi
  | relation r =>
    intro a hi
    rw [generate]
    exact h.relation (hv (self_mem_preorder _)) hi
  | choice id name children ih =>
    intro a hi
    have one : ∀ c ∈ children, OnVariable ρ D J limits c := fun c hc =>
      ih c hc fun w hw => hv (List.mem_cons_of_mem _ (preorder_subset_of_mem hc hw))
    rw [generate]
    refine (pickChild_returns h.leaves id children.length).bind fun index _ => ?_
    refine (generateNth_after one hi index).bind fun x hx => ?_
    cases x with
    | none => exact Returns.pure .none
    | some b =>
      obtain ⟨w, hw, hb⟩ := hx b rfl
      rw [hw]
      refine (h.compose_after (v := .choice id name children) (hv (self_mem_preorder _)) rfl hb.inv [w]).bind
        fun c hc => ?_
      exact Returns.pure (.some (hc.behind hb.step))
  | sequence id name children ih =>
    intro a hi
    have one : ∀ c ∈ children, OnVariable ρ D J limits c := fun c hc =>
      ih c hc fun w hw => hv (List.mem_cons_of_mem _ (preorder_subset_of_mem hc hw))
    rw [generate]
    refine (generateAll_after one hi).bind fun x hx => ?_
    cases x with
    | none => exact Returns.pure .none
    | some b =>
      have hb := hx b rfl
      refine (h.compose_after (v := .sequence id name children) (hv (self_mem_preorder _)) rfl hb.inv children).bind
        fun c hc => ?_
      exact Returns.pure (.some (hc.behind hb.step))
  | repetition id name child count delimiter ih =>
    intro a hi
    have one : OnVariable ρ D J limits child := ih fun w hw => hv (List.mem_cons_of_mem _ hw)
    rw [generate]
    refine (pickCount_returns h.leaves id count).bind fun k _ => ?_
    refine (instances_after one hi delimiter k true (D.empty a)).bind fun x hx => ?_
    cases x with
    | none => exact Returns.pure .none
    | some p =>
      obtain ⟨hb, hs, hf⟩ := hx p rfl
      refine (h.node (v := .repetition id name child count delimiter) (hv (self_mem_preorder _)) rfl hb hf).bind
        fun c hc => ?_
      exact Returns.pure (.some (hc.behind hs))

/-- Generation of all fields of a message keeps the discipline. -/
theorem generateFields_after {fields : List Field} (hv : fields.flatMap (·.domain.preorder) ⊆ vars) (hi : D.Inv a) :
    Returns (ρ := ρ) J (Symbol.generateFields limits fields a) (D.AfterAll (fields.map (·.domain)) a) := by
  induction fields generalizing a with
  | nil => exact Returns.pure (.nil hi)
  | cons f rest ih =>
    obtain ⟨hf, hrest⟩ := List.append_subset.mp hv
    rw [Symbol.generateFields]
    refine (h.generate_after f.domain hf hi).bind fun x hx => ?_
    cases x with
    | none => exact Returns.throw _
    | some b =>
      have hb := hx b rfl
      exact (ih hrest hb.inv).mono fun c hc => hb.cons hc

end Generates

end WireGrammar
