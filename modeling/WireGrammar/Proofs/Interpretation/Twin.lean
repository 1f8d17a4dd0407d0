import WireGrammar.Proofs.Assignment.Twin
import WireGrammar.Proofs.Interpretation.Enumeration

/-!
# Interpretation in front of different memories

Interpretation of a variable of a message in front of two assignments that differ only in remembered values which the
message does not read finds the same interpretations in the same order (`interpret_twin`, `interpretAll_twin`).
-/

namespace WireGrammar.Reading

open Assignment Variable

variable {reading : Reading} {s : Symbol} {committed : Store} {a b : Assignment} {offset : Nat}

theorem interpretData_twin (h : Twin s committed a b) {id : VarId} {name : String} {type : DataType} {scope : Scope}
    (hv : .data id name type scope ∈ s.allVariables) :
    List.Forall₂ (Twin s committed) (reading.interpretData id type scope a offset).toList
      (reading.interpretData id type scope b offset).toList := by
  cases hr : a.replayed? id type scope with
  | some value =>
    rw [toList_interpretData_replay hr, toList_interpretData_replay ((h.replayed?_eq hv).trans hr)]
    split
    · exact rel_toList (h.record id _).verified?
    · exact .nil
  | none =>
    have hr' := (h.replayed?_eq hv).trans hr
    by_cases hs : scope = .constant
    · subst hs
      rw [toList_interpretData_constant hr, toList_interpretData_constant hr']
      exact .nil
    · rw [toList_interpretData_fresh hr hs, toList_interpretData_fresh hr' hs]
      refine forall₂_filterMap _ fun length _ => ?_
      split
      · exact ((h.learnFresh scope id _).record id _).verified?
      · exact .none

theorem interpretRelation_twin (h : Twin s committed a b) {r : Relation} (hr : .relation r ∈ s.allVariables) :
    List.Forall₂ (Twin s committed) (reading.interpretRelation r a offset).toList
      (reading.interpretRelation r b offset).toList := by
  unfold interpretRelation
  rw [h.evaluate_eq hr]
  split
  next expected =>
    split
    · rw [Choices.toList_ofOption, Choices.toList_ofOption]
      exact rel_toList (h.setCell r.id _).verified?
    · exact .nil
  next n =>
    dsimp only
    split
    · rw [Choices.toList_ofOption, Choices.toList_ofOption]
      exact rel_toList (h.setCell r.id _).verified?
    · exact .nil
  next =>
    simp only [Choices.toList_filterMap, Choices.toList_ofList]
    refine forall₂_filterMap _ fun length _ => ?_
    split
    · exact ((h.setCell r.id _).awaitRelation hr).verified?
    · exact .none
  next => exact .nil

/-- Interpretation of a variable stays in step. -/
def OnTwins (reading : Reading) (s : Symbol) (committed : Store) (v : Variable) : Prop :=
  ∀ {a b offset}, Twin s committed a b → List.Forall₂ (Twin s committed) (reading.interpret v a offset).toList
    (reading.interpret v b offset).toList

theorem interpretAny_twin {id : VarId} {children : List Variable} (one : ∀ c ∈ children, OnTwins reading s committed c)
    (h : Twin s committed a b) : List.Forall₂ (Twin s committed) (reading.interpretAny id children a offset).toList
      (reading.interpretAny id children b offset).toList := by
  induction children with
  | nil => exact .nil
  | cons child rest ih =>
    rw [toList_interpretAny_cons, toList_interpretAny_cons]
    refine List.rel_append ?_ (ih fun c hc => one c (List.mem_cons_of_mem _ hc))
    exact List.rel_filterMap (fun x y hxy => hxy.compose? id [child]) (one child List.mem_cons_self h)

/-- Interpretation of variables one after the other stays in step, with the same offset behind them. -/
theorem interpretAll_twin_of {children : List Variable} (one : ∀ c ∈ children, OnTwins reading s committed c)
    (h : Twin s committed a b) :
    List.Forall₂ (fun p q => Twin s committed p.1 q.1 ∧ q.2 = p.2) (reading.interpretAll children a offset).toList
      (reading.interpretAll children b offset).toList := by
  induction children generalizing a b offset with
  | nil =>
    rw [toList_interpretAll_nil, toList_interpretAll_nil]
    exact .cons ⟨h, rfl⟩ .nil
  | cons child rest ih =>
    rw [toList_interpretAll_cons, toList_interpretAll_cons]
    refine forall₂_flatMap (one child List.mem_cons_self h) fun x y _ hxy => ?_
    rw [hxy.consumed_eq]
    exact ih (fun c hc => one c (List.mem_cons_of_mem _ hc)) hxy

theorem instances_twin {child : Variable} (one : OnTwins reading s committed child) (h : Twin s committed a b)
    (delimiter : Option BitString) (k : Nat) (isFirst : Bool) (content : Content) :
    List.Forall₂ (fun p q => Twin s committed p.1 q.1 ∧ q.2 = p.2)
      (reading.instances (reading.interpret child) child delimiter k isFirst a offset content).toList
      (reading.instances (reading.interpret child) child delimiter k isFirst b offset content).toList := by
  induction k generalizing a b isFirst offset content with
  | zero =>
    rw [toList_instances_zero, toList_instances_zero]
    exact .cons ⟨h, rfl⟩ .nil
  | succ k ih =>
    rw [toList_instances_succ, toList_instances_succ]
    cases reading.passDelimiter? delimiter isFirst offset content with
    | none => exact .nil
    | some q =>
      refine forall₂_flatMap (one h) fun x y _ hxy => ?_
      unfold afterInstance
      rw [hxy.consumed_eq, hxy.content?_eq]
      split
      next => exact .nil
      next => exact .nil
      next c _ _ =>
        rw [hxy.freeze_eq]
        exact ih hxy _ _

/-- Interpretation of a variable of the message finds the same in front of either assignment. -/
theorem interpret_twin (v : Variable) (hv : v.preorder ⊆ s.allVariables) : OnTwins reading s committed v := by
  induction v using Variable.induct with
  | data id name type scope =>
    intro a b offset h
    rw [interpret, interpret]
    exact interpretData_twin h (hv (self_mem_preorder _))
  | relation r =>
    intro a b offset h
    rw [interpret, interpret]
    exact interpretRelation_twin h (hv (self_mem_preorder _))
  | choice id name children ih =>
    intro a b offset h
    rw [interpret, interpret]
    exact interpretAny_twin
      (fun c hc => ih c hc fun w hw => hv (List.mem_cons_of_mem _ (preorder_subset_of_mem hc hw))) h
  | sequence id name children ih =>
    intro a b offset h
    rw [interpret, interpret, Choices.toList_filterMap, Choices.toList_filterMap]
    refine List.rel_filterMap (fun p q hpq => hpq.1.compose? id children) (interpretAll_twin_of ?_ h)
    exact fun c hc => ih c hc fun w hw => hv (List.mem_cons_of_mem _ (preorder_subset_of_mem hc hw))
  | repetition id name child count delimiter ih =>
    intro a b offset h
    rw [interpret, interpret]
    simp only [Choices.toList_flatMap, Choices.toList_ofList, Choices.toList_filterMap]
    refine forall₂_flatMap (List.forall₂_same.mpr fun k _ => rfl) fun k k' _ hk => ?_
    cases hk
    have one : OnTwins reading s committed child := ih fun w hw => hv (List.mem_cons_of_mem _ hw)
    refine List.rel_filterMap (fun p q hpq => ?_) (instances_twin one h delimiter k true .empty)
    obtain ⟨x, content⟩ := p
    obtain ⟨y, content'⟩ := q
    obtain ⟨hxy, rfl⟩ := hpq
    exact (hxy.record id _).verified?

/-- Interpretation of variables of the message one after the other finds the same in front of either assignment. -/
theorem interpretAll_twin {children : List Variable} (hc : children.flatMap preorder ⊆ s.allVariables)
    (h : Twin s committed a b) :
    List.Forall₂ (fun p q => Twin s committed p.1 q.1 ∧ q.2 = p.2) (reading.interpretAll children a offset).toList
      (reading.interpretAll children b offset).toList :=
  interpretAll_twin_of
    (fun c hm => interpret_twin c fun _ hw => hc (List.mem_flatMap.mpr ⟨c, hm, hw⟩)) h

end WireGrammar.Reading
