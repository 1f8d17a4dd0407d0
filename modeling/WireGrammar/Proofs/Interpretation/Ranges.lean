import WireGrammar.Proofs.Interpretation.Traced
import WireGrammar.Proofs.Relation.Ranges

/-!
# Interpretations keep to bounds

Where the relations of a tree keep to their bounds, interpretation of a variable keeps an assignment to the bounds of
all variables (`Reading.interpret_keepsTo`), by induction over the variable: a leaf has a value that its type accepts,
a relation what it computes or a candidate length, and the content of a node is put together from those of its children.
-/

namespace WireGrammar

open Assignment Reading Variable

variable {vars : List Variable} {v : Variable} {a b : Assignment} {reading : Reading} {offset : Nat}

/-- A value that a leaf has already is as long as its type allows. -/
theorem Assignment.KeepsTo.within_replayed? {id : VarId} {name : String} {type : DataType} {scope : Scope}
    {value : BitString} (h : a.KeepsTo vars) (hv : .data id name type scope ∈ vars)
    (hr : a.replayed? id type scope = some value) : Within type.bounds value.length := by
  obtain ⟨-, hr⟩ := Option.ite_none_right_eq_some.mp hr
  rcases Option.or_eq_some_iff.mp hr with hc | ⟨-, hk⟩
  · have range := DataType.acceptsLength_iff.mp ((DataType.acceptsLength_of_constant hc).mpr rfl)
    exact ⟨range.1, range.2.1⟩
  · exact h.known (.data id name type scope) hv value hk

theorem Assignment.KeepsTo.learnFresh {id : VarId} {name : String} {type : DataType} {scope : Scope}
    {value : BitString} (h : a.KeepsTo vars) (same : SameBounds vars) (hv : .data id name type scope ∈ vars)
    (hb : Within type.bounds value.length) : (a.learnFresh scope id value).KeepsTo vars := by
  unfold Assignment.learnFresh
  split
  · exact h
  · exact h.learn (v := .data id name type scope) same hv hb

namespace Reading

theorem length_bitsAt {length : Nat} (h : length ≤ reading.remaining offset) :
    (reading.bitsAt offset length).length = length := by
  unfold remaining at h
  rw [bitsAt, BitString.length_slice]
  omega

theorem interpretAll_keepsTo {children : List Variable}
    (one : ∀ c ∈ children, ∀ {a b offset}, a.KeepsTo vars → b ∈ (reading.interpret c a offset).toList → b.KeepsTo vars)
    (h : a.KeepsTo vars) {p : Assignment × Nat} (hp : p ∈ (reading.interpretAll children a offset).toList) :
    p.1.KeepsTo vars := by
  induction children generalizing a offset with
  | nil =>
    rw [toList_interpretAll_nil, List.mem_singleton] at hp
    rwa [hp]
  | cons c more ih =>
    obtain ⟨b, hb, hp⟩ := mem_interpretAll_cons.mp hp
    exact ih (fun c hc => one c (List.mem_cons_of_mem _ hc)) (one c List.mem_cons_self h hb) hp

variable (same : SameBounds vars) (relations : ∀ r, .relation r ∈ vars → r.KeepsToBounds vars)

include same

theorem interpretData_keepsTo {id : VarId} {name : String} {type : DataType} {scope : Scope} (h : a.KeepsTo vars)
    (hv : .data id name type scope ∈ vars) (hb : b ∈ (reading.interpretData id type scope a offset).toList) :
    b.KeepsTo vars := by
  rcases mem_interpretData.mp hb with ⟨value, hr, -, hb⟩ | ⟨-, -, length, -, ha, hb⟩
  · exact (h.record (v := .data id name type scope) same hv
      (by rw [Content.atoms_ofBits]; exact .ofBits (h.within_replayed? hv hr))).verified? hb
  · have within := DataType.within_of_accepts ha
    exact ((h.learnFresh same hv within).record (v := .data id name type scope) same hv
      (by rw [Content.atoms_ofBits]; exact .ofBits within)).verified? hb

theorem compose?_keepsTo {children : List Variable} (h : a.KeepsTo vars) (hv : v ∈ vars) (hc : children ⊆ vars)
    (within : ∀ n, Within (sequenceBounds (boundsAll children)) n → Within v.bounds n)
    (hb : a.compose? v.id children = some b) : b.KeepsTo vars := by
  obtain ⟨contents, hm, hb⟩ := compose?_eq_some_iff.mp hb
  exact (h.record same hv ((h.measures_composed same hc (mapM_eq_some_iff.mp hm)).mono within)).verified? hb

/-- The content of instances is that of so many instances of a child behind what it was. -/
theorem instances_keepsTo {child : Variable} {delimiter : Option BitString} {k : Nat} {isFirst : Bool} {content : Content}
    (hchild : child ∈ vars)
    (one : ∀ {a b offset}, a.KeepsTo vars → b ∈ (reading.interpret child a offset).toList → b.KeepsTo vars)
    (h : a.KeepsTo vars) {p : Assignment × Content}
    (hp : p ∈ (reading.instances (reading.interpret child) child delimiter k isFirst a offset content).toList) :
    p.1.KeepsTo vars ∧ ∃ atoms, p.2.atoms = content.atoms ++ atoms ∧
      Atom.Measures vars (Within (instanceBounds child.bounds k (delimiterLength delimiter) isFirst)) atoms := by
  induction k generalizing a offset isFirst content with
  | zero =>
    rw [toList_instances_zero, List.mem_singleton] at hp
    rw [hp]
    refine ⟨h, [], (List.append_nil _).symm, fun _ _ => ?_⟩
    simp [Atom.size, Within, instanceBounds, leastOf]
  | succ k ih =>
    obtain ⟨start, before, hpass, b, hb, -, own, hown, hp⟩ := mem_instances_succ.mp hp
    have kept := one h hb
    obtain ⟨hlast, atoms, hatoms, measured⟩ := ih kept hp
    refine ⟨hlast, Derivation.delimiterAtoms delimiter isFirst ++ (b.freeze own).atoms ++ atoms, ?_,
      kept.measures_instance same hchild hown measured⟩
    obtain ⟨bits, hd, hbefore, -⟩ := passDelimiter?_passes hpass
    rw [hatoms, Content.atoms_append, hbefore, hd]
    simp only [List.append_assoc]

include relations

theorem interpretRelation_keepsTo {r : Relation} (h : a.KeepsTo vars) (hr : .relation r ∈ vars)
    (hb : b ∈ (reading.interpretRelation r a offset).toList) : b.KeepsTo vars := by
  have known {bits : BitString} (hw : Within r.type.bounds bits.length) : (a.setCell r.id (.known bits)).KeepsTo vars :=
    h.setCell same hr fun n hn => by cases hn; exact hw
  rcases mem_interpretRelation.mp hb with ⟨bits, he, -, hb⟩ | ⟨n, he, hn, -, hb⟩ | ⟨-, n, hn, -, hb⟩
  · exact (known ((relations r hr).within_of_computes h (Or.inl he))).verified? hb
  · exact (known ((relations r hr).within_of_computes h (Or.inr ⟨n, he, length_bitsAt hn⟩))).verified? hb
  · have within := (relations r hr).within_of_candidate hn
    rw [← length_bitsAt (Relation.le_of_candidate hn)] at within
    exact ((known within).awaitRelation hr).verified? hb

/-- Interpretation of a variable keeps to bounds. -/
theorem interpret_keepsTo (v : Variable) (hv : v.preorder ⊆ vars) {a b : Assignment} {offset : Nat}
    (h : a.KeepsTo vars) (hb : b ∈ (reading.interpret v a offset).toList) : b.KeepsTo vars := by
  induction v using Variable.induct generalizing a b offset with
  | data id name type scope =>
    rw [interpret] at hb
    exact interpretData_keepsTo same h (hv (self_mem_preorder _)) hb
  | relation r =>
    rw [interpret] at hb
    exact interpretRelation_keepsTo same relations h (hv (self_mem_preorder _)) hb
  | choice id name children ih =>
    have below : ∀ c ∈ children, c.preorder ⊆ vars := fun c hc =>
      List.Subset.trans (preorder_subset_of_mem hc) (List.cons_subset.mp hv).2
    rw [interpret] at hb
    obtain ⟨child, hc, c, hi, hb⟩ := mem_interpretAny.mp hb
    refine compose?_keepsTo same (v := .choice id name children) (ih child hc (below child hc) h hi)
      (hv (self_mem_preorder _)) (List.cons_subset.mpr ⟨below child hc (self_mem_preorder _), List.nil_subset _⟩)
      (fun n hn => within_choice hc (within_of_singleton hn)) hb
  | sequence id name children ih =>
    have below : ∀ c ∈ children, c.preorder ⊆ vars := fun c hc =>
      List.Subset.trans (preorder_subset_of_mem hc) (List.cons_subset.mp hv).2
    obtain ⟨p, hp, hb⟩ := mem_interpret_sequence.mp hb
    have kept := interpretAll_keepsTo (fun c hc {_ _ _} h hb => ih c hc (below c hc) h hb) h hp
    exact compose?_keepsTo same (v := .sequence id name children) kept (hv (self_mem_preorder _))
      (fun c hc => below c hc (self_mem_preorder c)) (fun n hn => hn) hb
  | repetition id name child count delimiter ih =>
    have below : child.preorder ⊆ vars := (List.cons_subset.mp hv).2
    obtain ⟨k, hk, p, hp, hb⟩ := mem_interpret_repetition.mp hb
    obtain ⟨⟨least, stop⟩, -⟩ := mem_counts.mp hk
    obtain ⟨kept, atoms, hatoms, measured⟩ :=
      instances_keepsTo same (below (self_mem_preorder child)) (fun h hb => ih below h hb) h hp
    refine (kept.record (v := .repetition id name child count delimiter) same (hv (self_mem_preorder _)) ?_).verified? hb
    rw [hatoms, Content.atoms_empty, List.nil_append]
    exact measured.mono fun n hn => within_repetition least (by omega) hn

end Reading

end WireGrammar
