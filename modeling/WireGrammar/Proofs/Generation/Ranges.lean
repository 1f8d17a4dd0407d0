import WireGrammar.Proofs.Generation.Plain
import WireGrammar.Proofs.Interpretation.Ranges

/-!
# Bounds are sound

Generation without mutators keeps an assignment to the bounds of all variables as interpretation does
(`Generation.generate_keepsTo`), so that the length of whatever is recorded for a variable lies within its bounds
(`length_within_bounds`). This asks of each relation that its rule gives no lengths but those its type allows, which a
padding whose unit cannot be empty never does.
-/

namespace WireGrammar

open Assignment Generation Variable

variable {vars : List Variable} {v : Variable} {a b c : Assignment}

namespace Assignment

/-- What is recorded stays so. -/
theorem Grows.isSome_content? {ids : List VarId} (h : Grows ids a b) {id : VarId} (hc : (a.content? id).isSome) :
    (b.content? id).isSome := by
  obtain ⟨new, he, -⟩ := h.entries
  rw [content?, Option.isSome_map, entry?] at hc ⊢
  rw [he, List.lookup_append, Option.isSome_or, hc, Bool.or_true]

/-- What is true after a variable has been generated: bounds are kept to, and all that was recorded still is. -/
structure Ranged (vars : List Variable) (v : Variable) (a b : Assignment) : Prop where
  keeps : b.KeepsTo vars
  kept : ∀ id, (a.content? id).isSome → (b.content? id).isSome
  recorded : (b.content? v.id).isSome

theorem isSome_content?_record (id : VarId) (content : Content) : ((a.record id content).content? id).isSome := by
  rw [content?_of_record (entry?_record_self id content)]
  rfl

theorem isSome_content?_setCell (id : VarId) (cell : Cell) : ((a.setCell id cell).content? id).isSome := by
  rw [content?_of_cell?]
  · rfl
  · rw [cell?_setCell, if_pos rfl]
    rfl

section Steps

variable (same : SameBounds vars) (relations : ∀ r, .relation r ∈ vars → r.KeepsToBounds vars)

include same relations

/-- Values that are filled in are as long as their relations allow. -/
theorem KeepsTo.settles (h : a.KeepsTo vars) (hs : Settles a b) : b.KeepsTo vars := by
  induction hs with
  | refl => exact h
  | @fill a b r bits hr hc _ ih =>
    rcases h.pending r hr with own | foreign
    · exact ih (h.fillIn same own ((relations r own).within_of_computes h hc))
    · exact ih ((h.setCell_foreign foreign (.known bits)).endWait r.id)

theorem Ranged.of_settled (h : b.KeepsTo vars) (hg : Grows [v.id] a b) (recorded : (b.content? v.id).isSome)
    (hs : Settled b c) : Ranged vars v a c where
  keeps := h.settles same relations hs.1
  kept := fun _ hid => hs.1.grows.isSome_content? (hg.isSome_content? hid)
  recorded := hs.1.grows.isSome_content? recorded

/-- Without mutators a leaf or a relation gets a value that its type allows. -/
theorem LastStep.ranged (h : a.KeepsTo vars) (hv : v ∈ vars) (hn : v.isNode = false) (hl : LastStep none v a b) :
    Ranged vars v a b := by
  obtain ⟨made, hm, hs⟩ := hl
  have grows := hm.grows
  cases hm with
  | @data id name type scope a c value hvalue =>
    refine .of_settled same relations ?_ grows (isSome_content?_record _ _) hs
    have recorded {c : Assignment} (hc : c.KeepsTo vars) (hw : Within type.bounds value.length) :
        (c.record id (.ofBits value)).KeepsTo vars :=
      hc.record (v := .data id name type scope) same hv (by rw [Content.atoms_ofBits]; exact .ofBits hw)
    cases hvalue with
    | replay hr => exact recorded h (h.within_replayed? hv hr)
    | fresh hr hsc ha =>
      have within := DataType.within_of_accepts ha
      exact recorded (h.learnFresh same hv within) within
    | mutated hm hb => cases hm
  | mutated hm => cases hm
  | @ready r a bits hm hc =>
    refine .of_settled same relations ?_ grows (isSome_content?_setCell _ _) hs
    exact h.setCell same hv fun n hn => by
      cases hn
      exact (relations r hv).within_of_computes h hc
  | @wait r a hm hw =>
    refine .of_settled same relations ?_ grows ?_ hs
    · have kept : (a.setCell r.id (.awaited (announcedLength? r))).KeepsTo vars :=
        h.setCell same hv fun n (hn : n ∈ announcedLength? r) => Relation.within_of_announced hn
      exact kept.awaitRelation hv
    · rw [content?, entry?, entries_awaitRelation]
      exact isSome_content?_setCell r.id _
  | node hv => rw [hn] at hv; cases hv

end Steps

end Assignment

namespace Generation

variable {ρ : Type} [RandomSource ρ] {limits : GenerationLimits}

theorem generateAll_keepsTo {children : List Variable}
    (one : ∀ c ∈ children, ∀ {a}, a.KeepsTo vars → Yields (ρ := ρ) none (generate limits c a) (IfSome (Ranged vars c a)))
    (h : a.KeepsTo vars) :
    Yields (ρ := ρ) none (generateAll limits children a) (IfSome fun b => b.KeepsTo vars ∧
      (∀ id, (a.content? id).isSome → (b.content? id).isSome) ∧ ∀ c ∈ children, (b.content? c.id).isSome) := by
  induction children generalizing a with
  | nil => exact Yields.pure (.some ⟨h, fun _ hid => hid, fun _ hc => nomatch hc⟩)
  | cons c more ih =>
    rw [generateAll]
    refine (one c List.mem_cons_self h).bind fun x hx => ?_
    cases x with
    | none => exact Yields.pure .none
    | some b =>
      have first := hx b rfl
      refine (ih (fun c hc => one c (List.mem_cons_of_mem _ hc)) first.keeps).mono fun y hy d hd => ?_
      obtain ⟨keeps, kept, recorded⟩ := hy d hd
      exact ⟨keeps, fun id hid => kept id (first.kept id hid),
        List.forall_mem_cons.mpr ⟨kept c.id first.recorded, recorded⟩⟩

theorem generateNth_keepsTo {children : List Variable}
    (one : ∀ c ∈ children, ∀ {a}, a.KeepsTo vars → Yields (ρ := ρ) none (generate limits c a) (IfSome (Ranged vars c a)))
    (h : a.KeepsTo vars) (index : Nat) :
    Yields (ρ := ρ) none (generateNth limits children index a)
      (IfSome fun b => ∃ c, children[index]? = some c ∧ Ranged vars c a b) := by
  induction children generalizing index with
  | nil => exact Yields.pure .none
  | cons c more ih =>
    cases index with
    | zero =>
      rw [generateNth]
      exact (one c List.mem_cons_self h).mono fun x hx b hb => ⟨c, rfl, hx b hb⟩
    | succ index =>
      rw [generateNth]
      exact ih (fun c hc => one c (List.mem_cons_of_mem _ hc)) index

section Nodes

variable (same : SameBounds vars)

include same

/-- The content of instances is that of so many instances of a child behind what it was. -/
theorem instances_keepsTo {child : Variable} {delimiter : Option BitString} (hchild : child ∈ vars)
    (one : ∀ {a}, a.KeepsTo vars → Yields (ρ := ρ) none (generate limits child a) (IfSome (Ranged vars child a)))
    (h : a.KeepsTo vars) (k : Nat) (isFirst : Bool) (content : Content) :
    Yields (ρ := ρ) none (instances (generate limits child) child delimiter k isFirst a content)
      (IfSome fun p => p.1.KeepsTo vars ∧ (∀ id, (a.content? id).isSome → (p.1.content? id).isSome) ∧
        ∃ atoms, p.2.atoms = content.atoms ++ atoms ∧
          Atom.Measures vars (Within (instanceBounds child.bounds k (delimiterLength delimiter) isFirst)) atoms) := by
  induction k generalizing a isFirst content with
  | zero =>
    refine Yields.pure (.some ⟨h, fun _ hid => hid, [], (List.append_nil _).symm, fun _ _ => ?_⟩)
    simp [Atom.size, Within, instanceBounds, leastOf]
  | succ k ih =>
    rw [instances]
    refine (one h).bind fun x hx => ?_
    cases x with
    | none => exact Yields.pure .none
    | some b =>
      have first := hx b rfl
      dsimp only
      cases hown : b.content? child.id with
      | none => exact Yields.pure .none
      | some own =>
        refine (ih first.keeps false _).mono fun y hy p hp => ?_
        obtain ⟨keeps, kept, atoms, hatoms, measured⟩ := hy p hp
        refine ⟨keeps, fun id hid => kept id (first.kept id hid),
          Derivation.delimiterAtoms delimiter isFirst ++ (b.freeze own).atoms ++ atoms, ?_,
          first.keeps.measures_instance same hchild hown measured⟩
        rw [hatoms, Content.atoms_append, atoms_delimited]
        simp only [List.append_assoc]

variable (relations : ∀ r, .relation r ∈ vars → r.KeepsToBounds vars)

include relations

theorem node_keepsTo {content : Content} (h : a.KeepsTo vars) (hv : v ∈ vars)
    (hc : Atom.Measures vars (Within v.bounds) content.atoms) :
    Yields (ρ := ρ) none (settled (a.record v.id content)) (Ranged vars v a) := by
  have made := h.record same hv hc
  have grows : Grows [v.id] a (a.record v.id content) := (Grows.refl _ a).record List.mem_cons_self content
  refine (settled_yields _ made.distinct).mono fun b hs => ?_
  exact .of_settled same relations made grows (isSome_content?_record _ _) hs

theorem compose_keepsTo {children : List Variable} (h : a.KeepsTo vars) (hv : v ∈ vars) (hc : children ⊆ vars)
    (recorded : ∀ c ∈ children, (a.content? c.id).isSome)
    (within : ∀ n, Within (sequenceBounds (boundsAll children)) n → Within v.bounds n) :
    Yields (ρ := ρ) none (compose v.id children a) (Ranged vars v a) := by
  obtain ⟨contents, hm⟩ := Option.isSome_iff_exists.mp (isSome_mapM.mpr recorded)
  refine node_keepsTo same relations h hv ?_
  rw [filterMap_of_mapM hm]
  exact (h.measures_composed same hc (mapM_eq_some_iff.mp hm)).mono within

/-- Generation of a variable without mutators keeps to bounds. -/
theorem generate_keepsTo
    (counts : ∀ {id name child count delimiter}, .repetition id name child count delimiter ∈ vars → count.least < count.stop)
    (v : Variable) (hv : v.preorder ⊆ vars) {a : Assignment} (h : a.KeepsTo vars) :
    Yields (ρ := ρ) none (generate limits v a) (IfSome (Ranged vars v a)) := by
  induction v using Variable.induct generalizing a with
  | data id name type scope =>
    rw [generate]
    exact (generateData_yields h.distinct id name type scope).mono fun x hx b hb =>
      (hx b hb).ranged same relations h (hv (self_mem_preorder _)) rfl
  | relation r =>
    rw [generate]
    exact (generateRelation_yields h.distinct r).mono fun x hx b hb =>
      (hx b hb).ranged same relations h (hv (self_mem_preorder _)) rfl
  | choice id name children ih =>
    have below : ∀ c ∈ children, c.preorder ⊆ vars := fun c hc =>
      List.Subset.trans (preorder_subset_of_mem hc) (List.cons_subset.mp hv).2
    rw [generate]
    refine (pickChild_yields id children.length).bind fun index _ => ?_
    refine (generateNth_keepsTo (fun c hc {_} h => ih c hc (below c hc) h) h index).bind fun x hx => ?_
    cases x with
    | none => exact Yields.pure .none
    | some b =>
      obtain ⟨child, hchild, ranged⟩ := hx b rfl
      have hc := List.mem_of_getElem? hchild
      rw [hchild]
      refine (compose_keepsTo same relations (v := .choice id name children) ranged.keeps (hv (self_mem_preorder _))
        (List.cons_subset.mpr ⟨below child hc (self_mem_preorder _), List.nil_subset _⟩)
        (fun c hc => by rw [List.mem_singleton.mp hc]; exact ranged.recorded)
        fun n hn => within_choice hc (within_of_singleton hn)).bind fun c hc => ?_
      exact Yields.pure (.some ⟨hc.keeps, fun i hi => hc.kept i (ranged.kept i hi), hc.recorded⟩)
  | sequence id name children ih =>
    have below : ∀ c ∈ children, c.preorder ⊆ vars := fun c hc =>
      List.Subset.trans (preorder_subset_of_mem hc) (List.cons_subset.mp hv).2
    rw [generate]
    refine (generateAll_keepsTo (fun c hc {_} h => ih c hc (below c hc) h) h).bind fun x hx => ?_
    cases x with
    | none => exact Yields.pure .none
    | some b =>
      obtain ⟨keeps, kept, recorded⟩ := hx b rfl
      refine (compose_keepsTo same relations (v := .sequence id name children) keeps (hv (self_mem_preorder _))
        (fun c hc => below c hc (self_mem_preorder c)) recorded fun n hn => hn).bind fun c hc => ?_
      exact Yields.pure (.some ⟨hc.keeps, fun i hi => hc.kept i (kept i hi), hc.recorded⟩)
  | repetition id name child count delimiter ih =>
    have below : child.preorder ⊆ vars := (List.cons_subset.mp hv).2
    rw [generate]
    refine (pickCount_yields id count (counts (hv (self_mem_preorder _)))).bind fun k hk => ?_
    obtain ⟨least, stop⟩ := hk rfl
    refine (instances_keepsTo same (below (self_mem_preorder child)) (fun h => ih below h) h k true .empty).bind
      fun x hx => ?_
    cases x with
    | none => exact Yields.pure .none
    | some p =>
      obtain ⟨keeps, kept, atoms, hatoms, measured⟩ := hx p rfl
      refine (node_keepsTo same relations (v := .repetition id name child count delimiter) keeps
        (hv (self_mem_preorder _)) ?_).bind fun c hc => ?_
      · rw [hatoms, Content.atoms_empty, List.nil_append]
        exact measured.mono fun n hn => within_repetition least (by omega) hn
      · exact Yields.pure (.some ⟨hc.keeps, fun i hi => hc.kept i (kept i hi), hc.recorded⟩)

end Nodes

end Generation

/-- Variables of one tree in which no identity occurs twice have one bound for each identity. -/
theorem sameBounds_of_nodup (hn : v.ids.Nodup) : SameBounds v.preorder :=
  fun _ hx _ hy he => congrArg bounds (eq_of_id_of_nodup hn hx hy he)

/-- A text of one to three bytes behind its number of bits, and a copy of the text behind it. -/
def repeatedText : Variable :=
  .sequence ⟨0, []⟩ "repeated" [
    .relation ⟨⟨0, [0]⟩, "size", .size ⟨.ofNat 1, 0⟩, [⟨0, [1]⟩], .uint .one⟩,
    .data ⟨0, [1]⟩ "text" (.raw (.within ⟨1, some 3, by simp⟩)) .ephemeral,
    .relation ⟨⟨0, [2]⟩, "copy", .copy, [⟨0, [1]⟩], .raw (.within ⟨1, some 3, by simp⟩)⟩]

end WireGrammar
