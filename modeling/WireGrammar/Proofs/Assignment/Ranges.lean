import WireGrammar.Proofs.Assignment.Content
import WireGrammar.Proofs.Generation.Steps
import WireGrammar.Proofs.Interpretation.Sizes

/-!
# Assignments that keep to bounds

A content may hold slots, whose lengths are settled later and perhaps more than once. So what bounds it must hold for
all lengths that the relations may have (`Atom.Measures`): this does not depend on an assignment, is kept when contents
are joined, and when settled values take the place of slots (`Atom.Measures.settled`).

* `Assignment.KeepsTo`: whatever is recorded or remembered for the given variables is as long as their bounds allow.
* `KeepsTo.within_length?`, `within_targetBits?`: then the lengths and bits that are read off are, too.
-/

namespace WireGrammar

variable {vars : List Variable} {v w : Variable} {r : Relation} {P Q R : Nat → Prop} {xs ys : List Atom}

namespace Atom

/-- Whatever lengths within their bounds the relations of some variables have, the length of the atoms satisfies a
condition. -/
def Measures (vars : List Variable) (P : Nat → Prop) (atoms : List Atom) : Prop :=
  ∀ length : VarId → Nat,
    (∀ r, .relation r ∈ vars → .slot r.id ∈ atoms → Within r.type.bounds (length r.id)) → P (size length atoms)

namespace Measures

theorem mono (h : Measures vars P xs) (hp : ∀ n, P n → Q n) : Measures vars Q xs :=
  fun length hl => hp _ (h length hl)

theorem ofBits {bits : BitString} (h : P bits.length) : Measures vars P (ofBits bits) := by
  intro length _
  rwa [size_ofBits]

theorem slot (hr : .relation r ∈ vars) : Measures vars (Within r.type.bounds) [.slot r.id] :=
  fun _ hl => hl r hr (List.mem_singleton_self _)

/-- Lengths of parts add up. -/
theorem append (hx : Measures vars P xs) (hy : Measures vars Q ys) (hr : ∀ m n, P m → Q n → R (m + n)) :
    Measures vars R (xs ++ ys) := by
  intro length hl
  rw [size_append]
  exact hr _ _ (hx length fun r hr hs => hl r hr (List.mem_append_left _ hs))
    (hy length fun r hr hs => hl r hr (List.mem_append_right _ hs))

/-- The length of atoms with the values of settled relations in them is the one that slots of these lengths give. -/
theorem size_settled (a : Assignment) (length : VarId → Nat) (atoms : List Atom) :
    size length (atoms.flatMap a.settleAtom) = size (fun id => size length (a.settleAtom (.slot id))) atoms := by
  induction atoms with
  | nil => rfl
  | cons x rest ih =>
    rw [List.flatMap_cons, size_append, ih]
    cases x with
    | bit b => rfl
    | slot id => rfl

/-- Values in place of slots change nothing if they are as long as their relations allow. -/
theorem settled {a : Assignment} (h : Measures vars P xs)
    (known : ∀ r, .relation r ∈ vars → ∀ bits, a.cell? r.id = some (.known bits) → Within r.type.bounds bits.length) :
    Measures vars P (xs.flatMap a.settleAtom) := by
  intro length hl
  rw [size_settled]
  refine h _ fun r hr hs => ?_
  have kept : Atom.Resolves (fun id b => a.isPending id = false ∧ a.cell? id = some (.known b)) [.slot r.id]
    (a.settleAtom (.slot r.id)) := Assignment.settleAtom_resolves _
  have inside : a.settleAtom (.slot r.id) ⊆ xs.flatMap a.settleAtom :=
    fun x hx => List.mem_flatMap.mpr ⟨_, hs, hx⟩
  generalize a.settleAtom (.slot r.id) = own at kept inside
  cases kept with
  | keep _ rest =>
    cases rest
    exact hl r hr (inside (List.mem_singleton_self _))
  | fill value rest =>
    cases rest
    rw [List.append_nil, size_ofBits]
    exact known r hr _ value.2

end Measures

end Atom

namespace Variable

variable {b : Nat × Option Nat} {count : RepeatCount} {child : Variable} {delimiter : Option BitString} {k m n : Nat}

/-- The bounds of `k` instances with delimiters between them, the first of them behind a delimiter or not. -/
def instanceBounds (b : Nat × Option Nat) (k delimiter : Nat) (isFirst : Bool) : Nat × Option Nat :=
  (leastOf k b.1 delimiter isFirst, b.2.map fun m => leastOf k m delimiter isFirst)

/-- One instance more, with the delimiter before it. -/
theorem within_instanceBounds_succ {delimiter : Nat} {isFirst : Bool} (h : Within b n)
    (hr : Within (instanceBounds b k delimiter false) m) :
    Within (instanceBounds b (k + 1) delimiter isFirst) ((delimiter * if isFirst then 0 else 1) + n + m) := by
  refine ⟨?_, fun greatest hg => ?_⟩
  · rw [instanceBounds, leastOf_succ]
    exact Nat.add_le_add (Nat.add_le_add_left h.1 _) hr.1
  · obtain ⟨longest, hl, rfl⟩ := Option.map_eq_some_iff.mp hg
    rw [leastOf_succ]
    exact Nat.add_le_add (Nat.add_le_add_left (h.2 longest hl) _) (hr.2 _ (by rw [instanceBounds, hl]; rfl))

/-- As many instances as a repetition may have are as long as its bounds allow. -/
theorem within_repetition {id : VarId} {name : String} (least : count.least ≤ k) (below : k < count.stop)
    (h : Within (instanceBounds child.bounds k (delimiterLength delimiter) true) n) :
    Within (repetition id name child count delimiter).bounds n := by
  refine ⟨(repeated_le_repeated least).trans h.1, fun greatest hg => ?_⟩
  obtain ⟨m, hm, rfl⟩ := Option.map_eq_some_iff.mp hg
  exact (h.2 _ (by rw [instanceBounds, hm]; rfl)).trans (repeated_le_repeated (Nat.le_sub_one_of_lt below))

theorem within_choice {id : VarId} {name : String} {children : List Variable} (hc : child ∈ children)
    (h : Within child.bounds n) : Within (choice id name children).bounds n := by
  refine within_choiceBounds ?_ h
  rw [boundsAll_eq]
  exact List.mem_map_of_mem hc

theorem within_of_singleton (h : Within (sequenceBounds (boundsAll [child])) n) : Within child.bounds n := by
  refine ⟨h.1, fun greatest hg => h.2 greatest ?_⟩
  change child.bounds.2.bind _ = _
  rw [hg]
  rfl

end Variable

/-- Variables of one identity have the same bounds. -/
def SameBounds (vars : List Variable) : Prop :=
  ∀ v ∈ vars, ∀ w ∈ vars, v.id = w.id → v.bounds = w.bounds

namespace Assignment

open Variable

variable {a b : Assignment} {content : Content} {bits : BitString} {n : Nat}

/--
What is recorded and remembered for the given variables is as long as their bounds allow. Other variables may hold
anything, and relations among them may wait.
-/
structure KeepsTo (vars : List Variable) (a : Assignment) : Prop where
  content : ∀ v ∈ vars, ∀ c, a.entry? v.id = some (.content c) → Atom.Measures vars (Within v.bounds) c.atoms
  cell : ∀ v ∈ vars, ∀ cell, a.entry? v.id = some (.cell cell) →
    (∃ r, .relation r ∈ vars ∧ r.id = v.id) ∧ ∀ n ∈ cell.length?, Within v.bounds n
  known : ∀ v ∈ vars, ∀ bits ∈ a.known? v.id, Within v.bounds bits.length
  pending : ∀ r ∈ a.pending, .relation r ∈ vars ∨ ∀ v ∈ vars, v.id ≠ r.id
  distinct : a.Distinct

namespace KeepsTo

/-- At the start of a message it depends on the memory alone. -/
theorem ofMemory {memory : Memory} (known : ∀ v ∈ vars, ∀ bits ∈ memory.known? v.id, Within v.bounds bits.length)
    (scope : List VarId) : KeepsTo vars (.ofMemory memory scope) where
  content := fun _ _ _ h => nomatch h
  cell := fun _ _ _ h => nomatch h
  known := known
  pending := fun _ h => nomatch h
  distinct := List.nodup_nil

section Records

variable (h : KeepsTo vars a) (same : SameBounds vars)

include h

theorem verified? (hv : a.verified? = some b) : KeepsTo vars b := by
  obtain ⟨-, rfl⟩ := verified?_eq_some_iff.mp hv
  exact ⟨h.content, h.cell, h.known, fun r hr => h.pending r (List.mem_filter.mp hr).1,
    h.distinct.sublist List.filter_sublist⟩

theorem endWait (id : VarId) : KeepsTo vars (a.endWait id) :=
  ⟨h.content, h.cell, h.known, fun r hr => h.pending r (List.mem_filter.mp hr).1,
    h.distinct.sublist List.filter_sublist⟩

theorem awaitRelation (hr : .relation r ∈ vars) : KeepsTo vars (a.awaitRelation r) := by
  have pending : ∀ q ∈ (a.awaitRelation r).pending, .relation q ∈ vars ∨ ∀ v ∈ vars, v.id ≠ q.id := fun q hq => by
    rcases List.mem_append.mp (pending_awaitRelation r hq) with hq | hq
    · exact h.pending q hq
    · rw [List.mem_singleton.mp hq]
      exact Or.inl hr
  have distinct := h.distinct.awaitRelation r
  unfold Assignment.awaitRelation at pending distinct ⊢
  split
  · exact h
  next hp =>
    rw [if_neg hp] at pending distinct
    exact ⟨h.content, h.cell, h.known, pending, distinct⟩

/-- The value of any other variable changes nothing. -/
theorem setCell_foreign {id : VarId} (ho : ∀ v ∈ vars, v.id ≠ id) (cell : Cell) : KeepsTo vars (a.setCell id cell) := by
  refine ⟨fun w hw c he => ?_, fun w hw other he => ?_, h.known, h.pending, h.distinct⟩ <;>
    rw [entry?_setCell, if_neg (ho w hw)] at he
  · exact h.content w hw c he
  · exact h.cell w hw other he

theorem within_cell? (hr : .relation r ∈ vars) {cell : Cell} (hc : a.cell? r.id = some cell) (hn : n ∈ cell.length?) :
    Within r.type.bounds n :=
  (h.cell (.relation r) hr cell (cell?_eq_some_iff.mp hc)).2 n hn

include same

theorem record (hv : v ∈ vars) (hc : Atom.Measures vars (Within v.bounds) content.atoms) :
    KeepsTo vars (a.record v.id content) := by
  refine ⟨fun w hw c he => ?_, fun w hw cell he => ?_, h.known, h.pending, h.distinct⟩ <;>
    rw [entry?_record] at he
  · split at he
    next own =>
      cases he
      rwa [same w hw v hv own]
    next => exact h.content w hw c he
  · split at he
    · cases he
    · exact h.cell w hw cell he

theorem setCell {cell : Cell} (hr : .relation r ∈ vars) (hc : ∀ n ∈ cell.length?, Within r.type.bounds n) :
    KeepsTo vars (a.setCell r.id cell) := by
  refine ⟨fun w hw c he => ?_, fun w hw other he => ?_, h.known, h.pending, h.distinct⟩ <;>
    rw [entry?_setCell] at he
  · split at he
    · cases he
    · exact h.content w hw c he
  · split at he
    next own =>
      cases he
      rw [same w hw (.relation r) hr own]
      exact ⟨⟨r, hr, own.symm⟩, hc⟩
    next => exact h.cell w hw other he

theorem learn (hv : v ∈ vars) (hb : Within v.bounds bits.length) : KeepsTo vars (a.learn v.id bits) := by
  refine ⟨h.content, h.cell, fun w hw value hk => ?_, h.pending, h.distinct⟩
  by_cases own : w.id = v.id
  · have learned : (a.learn v.id bits).known? w.id = some bits := by
      simp [known?, Assignment.learn, own]
    rw [learned] at hk
    cases hk
    rwa [same w hw v hv own]
  · have other : (a.learn v.id bits).known? w.id = a.known? w.id := by
      rw [known?, Assignment.learn, List.lookup_cons, beq_eq_false_iff_ne.mpr own, known?]
    exact h.known w hw value (other ▸ hk)

theorem fillIn (hr : .relation r ∈ vars) (hb : Within r.type.bounds bits.length) :
    KeepsTo vars (a.fillIn r.id bits) := by
  have kept : KeepsTo vars (a.setCell r.id (.known bits)) := h.setCell same hr fun n hn => by
    cases hn
    exact hb
  exact kept.endWait r.id

end Records

section Readings

variable (h : KeepsTo vars a)

include h

/-- The content of a variable, which is its own slot for a relation, keeps to the bounds. -/
theorem measures_content? (same : SameBounds vars) (hv : v ∈ vars) (hc : a.content? v.id = some content) :
    Atom.Measures vars (Within v.bounds) content.atoms := by
  obtain ⟨entry, he, hc⟩ := Option.map_eq_some_iff.mp hc
  cases entry with
  | content c =>
    cases hc
    exact h.content v hv c he
  | cell cell =>
    cases hc
    obtain ⟨⟨r, hr, own⟩, -⟩ := h.cell v hv cell he
    rw [Content.atoms_slot, ← own, ← same (.relation r) hr v hv own]
    exact .slot hr

/-- So it does with the values of settled relations in it. -/
theorem measures_freeze (hc : Atom.Measures vars P content.atoms) : Atom.Measures vars P (a.freeze content).atoms := by
  rw [atoms_freeze]
  exact hc.settled fun r hr bits hk => h.within_cell? hr hk rfl

/-- A length that is known lies within the bounds of the variable. -/
theorem within_length? (hv : v ∈ vars) (hn : a.length? v.id = some n) : Within v.bounds n := by
  unfold length? at hn
  split at hn
  next c he =>
    obtain ⟨hs, rfl⟩ := measure_eq_some_iff.mp hn
    refine h.content v hv c he _ fun r hr hslot => ?_
    obtain ⟨m, hm⟩ := Option.isSome_iff_exists.mp (hs r.id hslot)
    obtain ⟨cell, hc, hl⟩ := Option.bind_eq_some_iff.mp hm
    rw [hm]
    exact h.within_cell? hr hc hl
  next cell he => exact (h.cell v hv cell he).2 n hn
  next => cases hn

/-- Bits read for a target are as long as its bounds allow. -/
theorem within_targetBits? {exclude : VarId} (hv : v ∈ vars) (hb : a.targetBits? v.id exclude = some bits) :
    Within v.bounds bits.length := by
  unfold targetBits? at hb
  split at hb
  next c he =>
    obtain ⟨hs, rfl⟩ := flatten_eq_some_iff.mp hb
    rw [Atom.length_fill]
    refine h.content v hv c he _ fun r hr hslot => ?_
    obtain ⟨value, hval⟩ := Option.isSome_iff_exists.mp (hs r.id hslot)
    rw [hval]
    obtain ⟨cell, hc, hval⟩ := Option.bind_eq_some_iff.mp hval
    split at hval
    · obtain ⟨m, hm, rfl⟩ := Option.map_eq_some_iff.mp hval
      exact h.within_cell? hr hc hm
    · cases cell with
      | known known =>
        cases hval
        exact h.within_cell? hr hc rfl
      | awaited length? => cases hval
  next cell he =>
    cases cell with
    | known known =>
      cases hb
      exact (h.cell v hv _ he).2 _ rfl
    | awaited length? => cases hb
  next he =>
    split at hb
    · cases hb
    · exact h.known v hv bits hb

/-! ## Contents of nodes -/

/-- The contents of children put together are as long as their bounds together allow. -/
theorem measures_composed (same : SameBounds vars) {children : List Variable} {contents : List Content}
    (hc : children ⊆ vars) (hm : List.Forall₂ (fun child own => a.content? child.id = some own) children contents) :
    Atom.Measures vars (Within (sequenceBounds (boundsAll children)))
      (contents.foldl (fun content own => content.append (a.freeze own)) Content.empty).atoms := by
  rw [atoms_foldl_freeze, Content.atoms_empty, List.nil_append]
  induction hm with
  | nil => exact fun _ _ => ⟨Nat.le_refl _, fun greatest _ => Nat.zero_le greatest⟩
  | @cons child own children contents first _ ih =>
    obtain ⟨hchild, hchildren⟩ := List.cons_subset.mp hc
    have own := h.measures_freeze (h.measures_content? same hchild first)
    rw [atoms_freeze] at own
    exact own.append (ih hchildren) fun m n => within_sequenceBounds

/-- One instance more behind a delimiter, and then all others. -/
theorem measures_instance (same : SameBounds vars) {child : Variable} {delimiter : Option BitString} {isFirst : Bool}
    {k : Nat} {own : Content} {rest : List Atom} (hchild : child ∈ vars) (hown : a.content? child.id = some own)
    (hr : Atom.Measures vars (Within (instanceBounds child.bounds k (delimiterLength delimiter) false)) rest) :
    Atom.Measures vars (Within (instanceBounds child.bounds (k + 1) (delimiterLength delimiter) isFirst))
      (Derivation.delimiterAtoms delimiter isFirst ++ (a.freeze own).atoms ++ rest) := by
  have before : Atom.Measures vars (· = delimiterLength delimiter * if isFirst then 0 else 1)
      (Derivation.delimiterAtoms delimiter isFirst) := by
    unfold Derivation.delimiterAtoms
    cases isFirst with
    | true => exact fun _ _ => rfl
    | false =>
      cases delimiter with
      | none => exact fun _ _ => rfl
      | some d => exact .ofBits (Nat.mul_one _).symm
  have one := before.append (h.measures_freeze (h.measures_content? same hchild hown))
    (R := fun n => ∃ m, Within child.bounds m ∧ n = (delimiterLength delimiter * if isFirst then 0 else 1) + m)
    fun m n hm hn => ⟨n, hn, by rw [hm]⟩
  refine one.append hr fun m n hm hn => ?_
  obtain ⟨i, hi, rfl⟩ := hm
  exact within_instanceBounds_succ hi hn

end Readings

end KeepsTo

end Assignment

end WireGrammar
