import WireGrammar.Proofs.Assignment.Discipline
import WireGrammar.Proofs.Interpretation.Steps
import WireGrammar.Proofs.Relation.Stability

/-!
# Disciplines in interpretation

Interpretation keeps a discipline when it does so at leaves, at relations and where a node is recorded
(`Interprets.interpret_after`, `Interprets.interpretAll_after`).
-/

namespace WireGrammar

open Assignment Reading Variable

variable {D : Discipline} {reading : Reading} {vars : List Variable} {a b : Assignment} {offset : Nat}

/-- Interpretation keeps a discipline at each of the given variables. -/
structure Interprets (D : Discipline) (reading : Reading) (vars : List Variable) : Prop where
  data : ∀ {id name type scope a b offset}, .data id name type scope ∈ vars → D.Inv a →
    b ∈ (reading.interpretData id type scope a offset).toList → D.After (.data id name type scope) a b
  relation : ∀ {r a b offset}, .relation r ∈ vars → D.Inv a →
    b ∈ (reading.interpretRelation r a offset).toList → D.After (.relation r) a b
  node : ∀ {v a b content}, v ∈ vars → v.isNode = true → D.Inv a → D.Fit a content →
    (a.record v.id content).verified? = some b → D.After v a b

namespace Interprets

variable (h : Interprets D reading vars)

/-- A variable is interpreted under the discipline. -/
def OnVariable (D : Discipline) (reading : Reading) (v : Variable) : Prop :=
  ∀ {a b offset}, D.Inv a → b ∈ (reading.interpret v a offset).toList → D.After v a b

theorem all_after {children : List Variable} (one : ∀ c ∈ children, OnVariable D reading c) (hi : D.Inv a)
    {p : Assignment × Nat} (hp : p ∈ (reading.interpretAll children a offset).toList) : D.AfterAll children a p.1 := by
  induction children generalizing a offset with
  | nil =>
    rw [toList_interpretAll_nil, List.mem_singleton] at hp
    rw [hp]
    exact .nil hi
  | cons v more ih =>
    obtain ⟨b, hb, hp⟩ := mem_interpretAll_cons.mp hp
    have after := one v List.mem_cons_self hi hb
    exact after.cons (ih (fun c hc => one c (List.mem_cons_of_mem _ hc)) after.inv hp)

theorem passDelimiter?_fit {delimiter : Option BitString} {isFirst : Bool} {content before : Content} {start : Nat}
    (hf : D.Fit a content) (hp : reading.passDelimiter? delimiter isFirst offset content = some (start, before)) :
    D.Fit a before := by
  unfold passDelimiter? at hp
  split at hp
  next d =>
    split at hp
    · cases hp
      exact D.pushBits hf d
    · cases hp
  next =>
    cases hp
    exact hf

theorem instances_after {child : Variable} (one : OnVariable D reading child) {delimiter : Option BitString} {k : Nat}
    {isFirst : Bool} {content : Content} {p : Assignment × Content} (hi : D.Inv a) (hf : D.Fit a content)
    (hp : p ∈ (reading.instances (reading.interpret child) child delimiter k isFirst a offset content).toList) :
    D.Inv p.1 ∧ D.Step a p.1 ∧ D.Fit p.1 p.2 := by
  induction k generalizing a isFirst offset content with
  | zero =>
    rw [toList_instances_zero, List.mem_singleton] at hp
    rw [hp]
    exact ⟨hi, D.refl a, hf⟩
  | succ k ih =>
    obtain ⟨start, before, hpass, b, hb, -, own, hown, hp⟩ := mem_instances_succ.mp hp
    have after := one hi hb
    have fit := D.append after.inv (D.kept after.step (passDelimiter?_fit hf hpass)) hown
    obtain ⟨hi', hs, hf'⟩ := ih after.inv fit hp
    exact ⟨hi', D.trans after.step hs, hf'⟩

include h

theorem compose?_after {v : Variable} (hv : v ∈ vars) (hn : v.isNode = true) (hi : D.Inv a) {children : List Variable}
    (hb : a.compose? v.id children = some b) : D.After v a b := by
  obtain ⟨contents, hc, hb⟩ := compose?_eq_some_iff.mp hb
  refine h.node hv hn hi (D.fit_foldl hi (fun own hown => ?_) (D.empty a)) hb
  obtain ⟨child, -, hchild⟩ := exists_of_mem_mapM hc hown
  exact ⟨child.id, hchild⟩

/-- Interpretation of a variable keeps the discipline. -/
theorem interpret_after (v : Variable) (hv : v.preorder ⊆ vars) : OnVariable D reading v := by
  induction v using Variable.induct with
  | data id name type scope =>
    intro a b offset hi hb
    rw [interpret] at hb
    exact h.data (hv (self_mem_preorder _)) hi hb
  | relation r =>
    intro a b offset hi hb
    rw [interpret] at hb
    exact h.relation (hv (self_mem_preorder _)) hi hb
  | choice id name children ih =>
    intro a b offset hi hb
    rw [interpret] at hb
    obtain ⟨child, hc, c, hi', hb⟩ := mem_interpretAny.mp hb
    have after := ih child hc (fun w hw => hv (List.mem_cons_of_mem _ (preorder_subset_of_mem hc hw))) hi hi'
    exact (h.compose?_after (v := .choice id name children) (hv (self_mem_preorder _)) rfl after.inv hb).behind after.step
  | sequence id name children ih =>
    intro a b offset hi hb
    obtain ⟨p, hp, hb⟩ := mem_interpret_sequence.mp hb
    have after := all_after (fun c hc => ih c hc fun w hw =>
      hv (List.mem_cons_of_mem _ (preorder_subset_of_mem hc hw))) hi hp
    exact (h.compose?_after (v := .sequence id name children) (hv (self_mem_preorder _)) rfl after.inv hb).behind
      after.step
  | repetition id name child count delimiter ih =>
    intro a b offset hi hb
    obtain ⟨k, -, p, hp, hb⟩ := mem_interpret_repetition.mp hb
    obtain ⟨hi', hs, hf⟩ := instances_after (ih fun w hw => hv (List.mem_cons_of_mem _ hw)) hi (D.empty a) hp
    exact (h.node (v := .repetition id name child count delimiter) (hv (self_mem_preorder _)) rfl hi' hf hb).behind hs

/-- Interpretation of variables one after the other keeps the discipline. -/
theorem interpretAll_after {children : List Variable} (hv : children.flatMap preorder ⊆ vars) (hi : D.Inv a)
    {p : Assignment × Nat} (hp : p ∈ (reading.interpretAll children a offset).toList) : D.AfterAll children a p.1 :=
  all_after (fun c hc => h.interpret_after c fun _ hw => hv (List.mem_flatMap.mpr ⟨c, hc, hw⟩)) hi hp

end Interprets

end WireGrammar
