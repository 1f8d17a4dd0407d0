import WireGrammar.Proofs.Assignment.Twin
import WireGrammar.Proofs.Generation.Settling

/-!
# Generation in front of different memories

Two computations are in step when from the same supply they draw the same and fail alike, or return results that
correspond (`Gen.InStep`). Generation of a variable of a message from two assignments that differ only in remembered
values which the message does not read is in step, and ends in two such assignments again (`generate_twin`,
`generateFields_twin`).
-/

namespace WireGrammar

/-! ## Computations in step -/

section InStep

variable {ρ α β γ δ : Type} {R : α → β → Prop} {R' : γ → δ → Prop} {T : Assignment → Assignment → Prop}

/-- Both fail in the same way, or both have results and these correspond. -/
inductive SameOutcome (R : α → β → Prop) : Except GenerationError α → Except GenerationError β → Prop where
  | ok {x : α} {y : β} (h : R x y) : SameOutcome R (.ok x) (.ok y)
  | error (e : GenerationError) : SameOutcome R (.error e) (.error e)

/-- From the same supply both computations have the same outcome, and leave the same supply behind. -/
def Gen.InStep (R : α → β → Prop) (g : Gen ρ α) (g' : Gen ρ β) : Prop :=
  ∀ supply, SameOutcome R (g.run.run supply).1 (g'.run.run supply).1 ∧
    (g'.run.run supply).2 = (g.run.run supply).2

namespace Gen.InStep

theorem pure {x : α} {y : β} (h : R x y) : InStep (ρ := ρ) R (Pure.pure x) (Pure.pure y) :=
  fun _ => ⟨.ok h, rfl⟩

theorem throw (e : GenerationError) : InStep (ρ := ρ) R (MonadExcept.throw e) (MonadExcept.throw e) :=
  fun _ => ⟨.error e, rfl⟩

/-- A computation is in step with itself. -/
theorem same (g : Gen ρ α) : InStep Eq g g := by
  intro supply
  refine ⟨?_, rfl⟩
  cases (g.run.run supply).1 with
  | ok x => exact .ok rfl
  | error e => exact .error e

theorem bind {g : Gen ρ α} {g' : Gen ρ β} {f : α → Gen ρ γ} {f' : β → Gen ρ δ} (h : InStep R g g')
    (hf : ∀ x y, R x y → InStep R' (f x) (f' y)) : InStep R' (g >>= f) (g' >>= f') := by
  intro supply
  obtain ⟨outcome, left⟩ := h supply
  rw [Gen.run_bind, Gen.run_bind]
  generalize g.run.run supply = p at outcome left ⊢
  generalize g'.run.run supply = q at outcome left ⊢
  obtain ⟨result, next⟩ := p
  obtain ⟨result', next'⟩ := q
  cases left
  cases outcome with
  | ok hr => exact hf _ _ hr _
  | error e => exact ⟨.error e, rfl⟩

/-- The same computation first, and then computations in step. -/
theorem bind_same {g : Gen ρ α} {f : α → Gen ρ γ} {f' : α → Gen ρ δ} (hf : ∀ x, InStep R' (f x) (f' x)) :
    InStep R' (g >>= f) (g >>= f') :=
  (same g).bind fun x _ he => he ▸ hf x

end Gen.InStep

/-- The same of computations that settle relations, from assignments that correspond to such. -/
def Settling.InStep (T : Assignment → Assignment → Prop) (R : α → β → Prop) (m : Settling ρ α) (m' : Settling ρ β) :
    Prop :=
  ∀ a b, T a b → ∀ source, SameOutcome R ((m.run.run a).run source).1.1 ((m'.run.run b).run source).1.1 ∧
    T ((m.run.run a).run source).1.2 ((m'.run.run b).run source).1.2 ∧
      ((m'.run.run b).run source).2 = ((m.run.run a).run source).2

namespace Settling.InStep

theorem pure {x : α} {y : β} (h : R x y) : InStep (ρ := ρ) T R (Pure.pure x) (Pure.pure y) :=
  fun _ _ ht _ => ⟨.ok h, ht, rfl⟩

theorem throw (e : GenerationError) : InStep (ρ := ρ) T R (MonadExcept.throw e) (MonadExcept.throw e) :=
  fun _ _ ht _ => ⟨.error e, ht, rfl⟩

theorem get : InStep (ρ := ρ) T T MonadState.get MonadState.get :=
  fun _ _ ht _ => ⟨.ok ht, ht, rfl⟩

theorem update {f f' : Assignment → Assignment} (hf : ∀ a b, T a b → T (f a) (f' b)) :
    InStep (ρ := ρ) T Eq (modify f) (modify f') :=
  fun a b ht _ => ⟨.ok rfl, hf a b ht, rfl⟩

theorem draw (m : StateM ρ α) : InStep T Eq (m : Settling ρ α) (m : Settling ρ α) :=
  fun _ _ ht _ => ⟨.ok rfl, ht, rfl⟩

theorem bind {m : Settling ρ α} {m' : Settling ρ β} {f : α → Settling ρ γ} {f' : β → Settling ρ δ}
    (h : InStep T R m m') (hf : ∀ x y, R x y → InStep T R' (f x) (f' y)) : InStep T R' (m >>= f) (m' >>= f') := by
  intro a b ht source
  obtain ⟨outcome, related, left⟩ := h a b ht source
  rw [run_bind, run_bind]
  generalize (m.run.run a).run source = p at outcome related left ⊢
  generalize (m'.run.run b).run source = q at outcome related left ⊢
  obtain ⟨⟨result, a⟩, next⟩ := p
  obtain ⟨⟨result', b⟩, next'⟩ := q
  cases left
  cases outcome with
  | ok hr => exact hf _ _ hr a b related _
  | error e => exact ⟨.error e, related, rfl⟩

end Settling.InStep

end InStep

open Assignment Generation Variable

variable {ρ : Type} [RandomSource ρ] {limits : GenerationLimits} {s : Symbol} {committed : Store} {a b : Assignment}

/-! ## Settling -/

section Settling

open Settling.InStep

theorem settleRound_twin {relations : List Relation} (hr : ∀ r ∈ relations, .relation r ∈ s.allVariables) :
    Settling.InStep (ρ := ρ) (Twin s committed) Eq (settleRound relations) (settleRound relations) := by
  induction relations with
  | nil => exact pure rfl
  | cons r rest ih =>
    obtain ⟨own, hrest⟩ := List.forall_mem_cons.mp hr
    have more : Settling.InStep (ρ := ρ) (Twin s committed) Eq
        (do discard (settleRound rest); return true) (do discard (settleRound rest); return true) :=
      bind (bind (ih hrest) fun _ _ _ => pure rfl) fun _ _ _ => pure rfl
    rw [settleRound]
    refine bind get fun x y hxy => ?_
    rw [hxy.evaluate_eq own]
    split
    next e _ => exact throw _
    next => exact ih hrest
    next bits _ => exact bind (update fun _ _ h => h.fillIn r.id bits) fun _ _ _ => more
    next n _ =>
      refine bind (draw _) fun bits bits' he => ?_
      rw [he]
      exact bind (update fun _ _ h => h.fillIn r.id bits') fun _ _ _ => more

theorem settleRounds_twin (n : Nat) :
    Settling.InStep (ρ := ρ) (Twin s committed) Eq (settleRounds n) (settleRounds n) := by
  induction n with
  | zero => exact pure rfl
  | succ n ih =>
    rw [settleRounds]
    refine bind get fun x y hxy => ?_
    rw [hxy.pending_eq]
    refine bind (settleRound_twin hxy.waits) fun filled filled' he => ?_
    cases he
    cases filled with
    | false => exact pure rfl
    | true => exact ih

end Settling

namespace Generation

open Gen.InStep

/-- The relations of both are settled in the same way. -/
theorem settled_twin (h : Twin s committed a b) :
    Gen.InStep (ρ := ρ) (Twin s committed) (settled a) (settled b) := by
  have rounds : Settling.InStep (ρ := ρ) (Twin s committed) Eq (settleRounds a.pending.length)
      (settleRounds a.pending.length) := settleRounds_twin a.pending.length
  have drawn : Gen.InStep (ρ := ρ) (fun p q => SameOutcome Eq p.1 q.1 ∧ Twin s committed p.2 q.2)
      (fromSource a.settle) (fromSource b.settle) := by
    intro supply
    obtain ⟨outcome, related, left⟩ := rounds a b h supply.source
    unfold settle
    rw [h.pending_eq]
    exact ⟨.ok ⟨outcome, related⟩, congrArg (fun source => { supply with source }) left⟩
  unfold settled
  refine drawn.bind fun p q hpq => ?_
  obtain ⟨result, x⟩ := p
  obtain ⟨result', y⟩ := q
  obtain ⟨outcome, related⟩ := hpq
  cases outcome with
  | ok _ => exact .pure related
  | error e => exact .throw e

/-! ## Leaves and relations -/

section Leaves

variable {id : VarId} {name : String} {type : DataType} {scope : Scope}

/-- The same value, found with assignments that correspond. -/
def SameValue (s : Symbol) (committed : Store) (p q : BitString × Assignment) : Prop :=
  q.1 = p.1 ∧ Twin s committed p.2 q.2

theorem leafValue_twin (h : Twin s committed a b) (hv : .data id name type scope ∈ s.allVariables) :
    Gen.InStep (ρ := ρ) (Option.Rel (SameValue s committed)) (leafValue limits id type scope a)
      (leafValue limits id type scope b) := by
  have known : (if scope.replays then type.constant?.or (b.known? id) else none) =
      if scope.replays then type.constant?.or (a.known? id) else none := h.replayed?_eq hv
  unfold leafValue
  rw [known]
  dsimp only
  split
  next => exact .pure (.some ⟨rfl, h⟩)
  next => exact .pure .none
  next => exact bind_same fun value => .pure (.some ⟨rfl, h⟩)
  next => exact bind_same fun value => .pure (.some ⟨rfl, h.learn id value⟩)

theorem mutatedValue_twin (h : Twin s committed a b) (hv : .data id name type scope ∈ s.allVariables) :
    Gen.InStep (ρ := ρ) (Option.Rel (SameValue s committed)) (mutatedValue limits id type scope a)
      (mutatedValue limits id type scope b) := by
  unfold mutatedValue
  refine bind_same fun mode => ?_
  split
  next => exact leafValue_twin h hv
  next =>
    refine (leafValue_twin h hv).bind fun p q hpq => ?_
    cases hpq with
    | none => exact .pure .none
    | @some p q hpq =>
      obtain ⟨value, x⟩ := p
      obtain ⟨value', y⟩ := q
      obtain ⟨he, hxy⟩ := hpq
      cases he
      exact bind_same fun mutated => .pure (.some ⟨rfl, hxy⟩)
  next =>
    refine bind_same fun value => ?_
    cases value with
    | some value => exact .pure (.some ⟨rfl, h⟩)
    | none => exact bind_same fun value => .pure (.some ⟨rfl, h⟩)

theorem generateData_twin (h : Twin s committed a b) (hv : .data id name type scope ∈ s.allVariables) :
    Gen.InStep (ρ := ρ) (Option.Rel (Twin s committed)) (generateData limits id type scope a)
      (generateData limits id type scope b) := by
  unfold generateData
  refine (mutatedValue_twin h hv).bind fun p q hpq => ?_
  cases hpq with
  | none => exact .pure .none
  | @some p q hpq =>
    obtain ⟨value, x⟩ := p
    obtain ⟨value', y⟩ := q
    obtain ⟨he, hxy⟩ := hpq
    cases he
    exact (settled_twin (hxy.record id _)).bind fun _ _ h => .pure (.some h)

theorem generateRelation_twin (h : Twin s committed a b) {r : Relation} (hr : .relation r ∈ s.allVariables) :
    Gen.InStep (ρ := ρ) (Option.Rel (Twin s committed)) (generateRelation r a) (generateRelation r b) := by
  have known (bits : BitString) : Gen.InStep (ρ := ρ) (Option.Rel (Twin s committed))
      (do return some (← settled (a.setCell r.id (.known bits))))
      (do return some (← settled (b.setCell r.id (.known bits)))) :=
    (settled_twin (h.setCell r.id _)).bind fun _ _ h => .pure (.some h)
  unfold generateRelation
  refine bind_same fun value => ?_
  cases value with
  | some bits => exact known bits
  | none =>
    dsimp only
    rw [h.evaluate_eq hr]
    split
    next => exact .throw _
    next bits _ => exact known bits
    next => exact bind_same fun bits => known bits
    next => exact (settled_twin ((h.setCell r.id _).awaitRelation hr)).bind fun _ _ h => .pure (.some h)

end Leaves

/-! ## Nodes -/

theorem compose_twin (h : Twin s committed a b) (id : VarId) (children : List Variable) :
    Gen.InStep (ρ := ρ) (Twin s committed) (compose id children a) (compose id children b) := by
  have contents : (children.filterMap fun child => b.content? child.id) =
      children.filterMap fun child => a.content? child.id :=
    List.filterMap_congr fun child _ => h.content?_eq child.id
  have freeze : b.freeze = a.freeze := funext h.freeze_eq
  unfold compose
  rw [contents, freeze]
  exact settled_twin (h.record id _)

/-- Generation of a variable stays in step. -/
def OnTwins (ρ : Type) [RandomSource ρ] (limits : GenerationLimits) (s : Symbol) (committed : Store) (v : Variable) :
    Prop :=
  ∀ {a b}, Twin s committed a b →
    Gen.InStep (ρ := ρ) (Option.Rel (Twin s committed)) (generate limits v a) (generate limits v b)

theorem generateAll_twin {children : List Variable} (one : ∀ c ∈ children, OnTwins ρ limits s committed c)
    (h : Twin s committed a b) :
    Gen.InStep (ρ := ρ) (Option.Rel (Twin s committed)) (generateAll limits children a)
      (generateAll limits children b) := by
  induction children generalizing a b with
  | nil => exact .pure (.some h)
  | cons child rest ih =>
    rw [generateAll, generateAll]
    refine (one child List.mem_cons_self h).bind fun x y hxy => ?_
    cases hxy with
    | none => exact .pure .none
    | some hxy => exact ih (fun c hc => one c (List.mem_cons_of_mem _ hc)) hxy

theorem generateNth_twin {children : List Variable} (one : ∀ c ∈ children, OnTwins ρ limits s committed c)
    (h : Twin s committed a b) (index : Nat) :
    Gen.InStep (ρ := ρ) (Option.Rel (Twin s committed)) (generateNth limits children index a)
      (generateNth limits children index b) := by
  induction children generalizing index with
  | nil => exact .pure .none
  | cons child rest ih =>
    cases index with
    | zero => exact one child List.mem_cons_self h
    | succ index => exact ih (fun c hc => one c (List.mem_cons_of_mem _ hc)) index

theorem instances_twin {child : Variable} (one : OnTwins ρ limits s committed child) (h : Twin s committed a b)
    (delimiter : Option BitString) (k : Nat) (isFirst : Bool) (content : Content) :
    Gen.InStep (ρ := ρ) (Option.Rel fun p q => Twin s committed p.1 q.1 ∧ q.2 = p.2)
      (instances (generate limits child) child delimiter k isFirst a content)
      (instances (generate limits child) child delimiter k isFirst b content) := by
  induction k generalizing a b isFirst content with
  | zero => exact .pure (.some ⟨h, rfl⟩)
  | succ k ih =>
    rw [instances, instances]
    refine (one h).bind fun x y hxy => ?_
    cases hxy with
    | none => exact .pure .none
    | @some x y hxy =>
      dsimp only
      rw [hxy.content?_eq]
      cases x.content? child.id with
      | none => exact .pure .none
      | some own =>
        dsimp only
        rw [hxy.freeze_eq]
        exact ih hxy _ _

/-- Generation of a variable of the message is in step from either assignment. -/
theorem generate_twin (v : Variable) (hv : v.preorder ⊆ s.allVariables) : OnTwins ρ limits s committed v := by
  induction v using Variable.induct with
  | data id name type scope =>
    intro a b h
    exact generateData_twin h (hv (self_mem_preorder _))
  | relation r =>
    intro a b h
    exact generateRelation_twin h (hv (self_mem_preorder _))
  | choice id name children ih =>
    intro a b h
    have one : ∀ c ∈ children, OnTwins ρ limits s committed c := fun c hc =>
      ih c hc fun w hw => hv (List.mem_cons_of_mem _ (preorder_subset_of_mem hc hw))
    rw [generate, generate]
    refine bind_same fun index => (generateNth_twin one h index).bind fun x y hxy => ?_
    cases hxy with
    | none => exact .pure .none
    | some hxy =>
      cases children[index]? with
      | none => exact .pure .none
      | some child => exact (compose_twin hxy id [child]).bind fun _ _ h => .pure (.some h)
  | sequence id name children ih =>
    intro a b h
    have one : ∀ c ∈ children, OnTwins ρ limits s committed c := fun c hc =>
      ih c hc fun w hw => hv (List.mem_cons_of_mem _ (preorder_subset_of_mem hc hw))
    rw [generate, generate]
    refine (generateAll_twin one h).bind fun x y hxy => ?_
    cases hxy with
    | none => exact .pure .none
    | some hxy => exact (compose_twin hxy id children).bind fun _ _ h => .pure (.some h)
  | repetition id name child count delimiter ih =>
    intro a b h
    have one : OnTwins ρ limits s committed child := ih fun w hw => hv (List.mem_cons_of_mem _ hw)
    rw [generate, generate]
    refine bind_same fun k => (instances_twin one h delimiter k true .empty).bind fun p q hpq => ?_
    cases hpq with
    | none => exact .pure .none
    | @some p q hpq =>
      obtain ⟨x, content⟩ := p
      obtain ⟨y, content'⟩ := q
      obtain ⟨hxy, rfl⟩ := hpq
      exact (settled_twin (hxy.record id _)).bind fun _ _ h => .pure (.some h)

end Generation

/-- Generation of all fields is in step from either assignment. -/
theorem Symbol.generateFields_twin {fields : List Field} (hf : fields.flatMap (·.domain.preorder) ⊆ s.allVariables)
    (h : Twin s committed a b) :
    Gen.InStep (ρ := ρ) (Twin s committed) (generateFields limits fields a) (generateFields limits fields b) := by
  induction fields generalizing a b with
  | nil => exact .pure h
  | cons f rest ih =>
    obtain ⟨hd, hrest⟩ := List.append_subset.mp hf
    rw [generateFields, generateFields]
    refine (generate_twin f.domain hd h).bind fun x y hxy => ?_
    cases hxy with
    | none => exact .throw _
    | some hxy => exact ih hrest hxy

end WireGrammar
