import WireGrammar.Proofs.Interpretation.Derivation
import WireGrammar.Proofs.Interpretation.Steps

/-!
# Derivations of a variable

The trees that have the shape of a variable (`Variable.Fits`), whatever a leaf may hold and however often a repetition
may repeat: a choice takes one of its children, a sequence all of them. A relation that does not stand below a
repetition has at most one place in such a tree (`Fits.count_slot_le`).
-/

namespace WireGrammar.Variable

/-- What a leaf may hold. -/
abbrev LeafRule : Type :=
  VarId → DataType → Scope → BitString → Prop

mutual

/-- The derivations of a variable, with conditions on leaves and counts. -/
def Fits (leaf : LeafRule) (counts : RepeatCount → Nat → Prop) : Variable → Derivation → Prop
  | .data id _ type scope, d => ∃ bits, d = .leaf bits ∧ leaf id type scope bits
  | .relation r, d => d = .relation r.id
  | .choice _ _ children, d => ∃ index inner, d = .choice index inner ∧ FitsNth leaf counts children index inner
  | .sequence _ _ children, d => ∃ parts, d = .sequence parts ∧ FitsAll leaf counts children parts
  | .repetition _ _ child count delimiter, d => ∃ parts, d = .repetition delimiter parts ∧
      counts count parts.length ∧ ∀ part ∈ parts, Fits leaf counts child part

/-- The derivations of the child with an index. -/
def FitsNth (leaf : LeafRule) (counts : RepeatCount → Nat → Prop) : List Variable → Nat → Derivation → Prop
  | [], _, _ => False
  | c :: _, 0, d => Fits leaf counts c d
  | _ :: more, index + 1, d => FitsNth leaf counts more index d

/-- The derivations of all children, one for each. -/
def FitsAll (leaf : LeafRule) (counts : RepeatCount → Nat → Prop) : List Variable → List Derivation → Prop
  | [], parts => parts = []
  | c :: more, parts => ∃ d rest, parts = d :: rest ∧ Fits leaf counts c d ∧ FitsAll leaf counts more rest

end

variable {leaf leaf' : LeafRule} {counts : RepeatCount → Nat → Prop}

theorem fitsNth_iff {children : List Variable} {index : Nat} {d : Derivation} :
    FitsNth leaf counts children index d ↔ ∃ c, children[index]? = some c ∧ Fits leaf counts c d := by
  induction children generalizing index with
  | nil => simp [FitsNth]
  | cons c more ih =>
    cases index with
    | zero => simp [FitsNth]
    | succ index => simp [FitsNth, ih]

theorem fitsAll_mono {counts' : RepeatCount → Nat → Prop} {children : List Variable}
    (one : ∀ c ∈ children, ∀ {d}, Fits leaf counts c d → Fits leaf' counts' c d) {parts : List Derivation}
    (h : FitsAll leaf counts children parts) : FitsAll leaf' counts' children parts := by
  induction children generalizing parts with
  | nil => exact h
  | cons c more ih =>
    obtain ⟨d, rest, rfl, hd, hr⟩ := h
    exact ⟨d, rest, rfl, one c List.mem_cons_self hd, ih (fun c hc => one c (List.mem_cons_of_mem _ hc)) hr⟩

/-- What fits under some conditions fits under weaker ones on the leaves of the tree and on counts. -/
theorem Fits.weaken {counts' : RepeatCount → Nat → Prop} {v : Variable} {d : Derivation}
    (hl : ∀ {id name type scope bits}, .data id name type scope ∈ v.preorder → leaf id type scope bits →
      leaf' id type scope bits) (hc : ∀ {count k}, counts count k → counts' count k) (h : Fits leaf counts v d) :
    Fits leaf' counts' v d := by
  induction v using Variable.induct generalizing d with
  | data id name type scope =>
    obtain ⟨bits, rfl, hb⟩ := h
    exact ⟨bits, rfl, hl (self_mem_preorder _) hb⟩
  | relation r => exact h
  | choice id name children ih =>
    obtain ⟨index, inner, rfl, hn⟩ := h
    obtain ⟨c, hi, hd⟩ := fitsNth_iff.mp hn
    have hm := List.mem_of_getElem? hi
    have below : c.preorder ⊆ (Variable.choice id name children).preorder := fun _ hv =>
      List.mem_cons_of_mem _ (preorder_subset_of_mem hm hv)
    exact ⟨index, inner, rfl, fitsNth_iff.mpr ⟨c, hi, ih c hm (fun hv => hl (below hv)) hd⟩⟩
  | sequence id name children ih =>
    obtain ⟨parts, rfl, hp⟩ := h
    have below : ∀ c ∈ children, c.preorder ⊆ (Variable.sequence id name children).preorder := fun _ hm _ hv =>
      List.mem_cons_of_mem _ (preorder_subset_of_mem hm hv)
    exact ⟨parts, rfl, fitsAll_mono (fun c hm _ hd => ih c hm (fun hv => hl (below c hm hv)) hd) hp⟩
  | repetition id name child count delimiter ih =>
    obtain ⟨parts, rfl, hk, hp⟩ := h
    exact ⟨parts, rfl, hc hk, fun part hpart => ih (fun hv => hl (List.mem_cons_of_mem _ hv)) (hp part hpart)⟩

/-- What fits under one condition on leaves fits under a weaker one. -/
theorem Fits.mono (hl : ∀ {id type scope bits}, leaf id type scope bits → leaf' id type scope bits) {v : Variable}
    {d : Derivation} (h : Fits leaf counts v d) : Fits leaf' counts v d :=
  h.weaken (fun _ => hl) (fun hk => hk)

/-! ## Leaves -/

section Leaves

open Assignment

variable {a b : Assignment} {id : VarId} {type : DataType} {scope : Scope} {bits : BitString}

/-- A leaf holds a value that its type accepts, and one that replays values holds the fixed or a known one. -/
structure HoldsLeaf (a : Assignment) (id : VarId) (type : DataType) (scope : Scope) (bits : BitString) : Prop where
  fresh : scope.replays = false → type.accepts bits = true
  replayed : scope.replays = true → type.constant? = some bits ∨
    type.constant? = none ∧ ((id, bits) ∈ a.learned ∨ a.committed.get? id = some bits)

namespace HoldsLeaf

theorem congr (hl : b.learned = a.learned) (hc : b.committed = a.committed) (h : HoldsLeaf a id type scope bits) :
    HoldsLeaf b id type scope bits :=
  ⟨h.fresh, by rw [hl, hc]; exact h.replayed⟩

theorem grows {ids : List VarId} (hg : Grows ids a b) (h : HoldsLeaf a id type scope bits) :
    HoldsLeaf b id type scope bits := by
  refine ⟨h.fresh, fun hs => (h.replayed hs).imp_right fun ⟨hc, hk⟩ => ⟨hc, ?_⟩⟩
  obtain ⟨new, hn, -⟩ := hg.learned
  rw [hn, hg.committed]
  exact hk.imp_left (List.mem_append_right _)

/-- A leaf holds the value that it has already. -/
theorem of_replayed (h : a.replayed? id type scope = some bits) : HoldsLeaf a id type scope bits := by
  obtain ⟨hs, h⟩ := Option.ite_none_right_eq_some.mp h
  refine ⟨fun hf => absurd (hs.symm.trans hf) nofun, fun _ => ?_⟩
  cases hc : type.constant? with
  | some c =>
    rw [hc, Option.some_or] at h
    exact Or.inl h
  | none =>
    rw [hc, Option.none_or] at h
    refine Or.inr ⟨rfl, ?_⟩
    rcases Option.or_eq_some_iff.mp h with h | ⟨-, h⟩
    · obtain ⟨front, back, hl, -⟩ := List.lookup_eq_some_iff.mp h
      exact Or.inl (hl ▸ List.mem_append_right _ List.mem_cons_self)
    · exact Or.inr h

/-- A leaf holds a fresh value, which is learned if it is to be used again. -/
theorem of_fresh (h : a.replayed? id type scope = none) (ha : type.accepts bits = true) :
    HoldsLeaf (a.learnFresh scope id bits) id type scope bits := by
  refine ⟨fun _ => ha, fun hr => ?_⟩
  unfold replayed? at h
  rw [if_pos hr] at h
  refine Or.inr ⟨(Option.or_eq_none_iff.mp h).1, Or.inl ?_⟩
  have hv : scope ≠ .volatile := by
    rintro rfl
    cases hr
  unfold learnFresh
  rw [if_neg hv]
  exact List.mem_cons_self

end HoldsLeaf

end Leaves

/-! ## Places of relations -/

/-- Whether a variable stands below a repetition of the tree. -/
def IsRepeated (v : Variable) (i : VarId) : Prop :=
  ∃ id name child count delimiter, .repetition id name child count delimiter ∈ v.preorder ∧ i ∈ child.ids

variable {i : VarId}

theorem IsRepeated.of_child {v c : Variable} (hc : c ∈ v.children) (h : c.IsRepeated i) : v.IsRepeated i := by
  obtain ⟨id, name, child, count, delimiter, hm, hi⟩ := h
  exact ⟨id, name, child, count, delimiter, children_subset_preorder v (preorder_subset_of_mem hc hm), hi⟩

theorem slot_mem_joined {delimiter : Option BitString} {isFirst : Bool} {parts : List (List Atom)}
    (h : .slot i ∈ Derivation.joined delimiter isFirst parts) : ∃ part ∈ parts, .slot i ∈ part := by
  induction parts generalizing isFirst with
  | nil => cases h
  | cons part rest ih =>
    rw [Derivation.joined, List.mem_append, List.mem_append] at h
    rcases h with (h | h) | h
    · unfold Derivation.delimiterAtoms at h
      cases isFirst with
      | true => cases h
      | false =>
        cases delimiter with
        | none => cases h
        | some d => exact absurd h Atom.slot_notMem_ofBits
    · exact ⟨part, List.mem_cons_self, h⟩
    · obtain ⟨other, ho, hi⟩ := ih h
      exact ⟨other, List.mem_cons_of_mem _ ho, hi⟩

theorem mem_atomsAll {parts : List Derivation} {atoms : List Atom} :
    atoms ∈ Derivation.atomsAll parts ↔ ∃ d ∈ parts, d.atoms = atoms := by
  induction parts with
  | nil => simp [Derivation.atomsAll]
  | cons d rest ih => simp [Derivation.atomsAll, ih, eq_comm]

theorem FitsAll.exists_of_mem {children : List Variable} {parts : List Derivation}
    (h : FitsAll leaf counts children parts) {d : Derivation} (hd : d ∈ parts) :
    ∃ c ∈ children, Fits leaf counts c d := by
  induction children generalizing parts with
  | nil =>
    obtain rfl : parts = [] := h
    cases hd
  | cons c more ih =>
    obtain ⟨e, rest, rfl, he, hr⟩ := h
    rcases List.mem_cons.mp hd with rfl | hd
    · exact ⟨c, List.mem_cons_self, he⟩
    · obtain ⟨w, hw, hf⟩ := ih hr hd
      exact ⟨w, List.mem_cons_of_mem _ hw, hf⟩

/-- The slots of a derivation are relations of the tree. -/
theorem Fits.exists_relation {v : Variable} {d : Derivation} (h : Fits leaf counts v d) (hi : .slot i ∈ d.atoms) :
    ∃ r, .relation r ∈ v.preorder ∧ r.id = i := by
  induction v using Variable.induct generalizing d with
  | data id name type scope =>
    obtain ⟨bits, rfl, -⟩ := h
    exact absurd hi Atom.slot_notMem_ofBits
  | relation r =>
    obtain rfl : d = .relation r.id := h
    rw [Derivation.atoms, List.mem_singleton] at hi
    cases hi
    exact ⟨r, self_mem_preorder _, rfl⟩
  | choice id name children ih =>
    obtain ⟨index, inner, rfl, hn⟩ := h
    obtain ⟨c, hc, hf⟩ := fitsNth_iff.mp hn
    have hm := List.mem_of_getElem? hc
    obtain ⟨r, hr, hid⟩ := ih c hm hf hi
    exact ⟨r, List.mem_cons_of_mem _ (preorder_subset_of_mem hm hr), hid⟩
  | sequence id name children ih =>
    obtain ⟨parts, rfl, hp⟩ := h
    rw [Derivation.atoms, List.mem_flatten] at hi
    obtain ⟨atoms, ha, hi⟩ := hi
    obtain ⟨d, hd, rfl⟩ := mem_atomsAll.mp ha
    obtain ⟨c, hc, hf⟩ := hp.exists_of_mem hd
    obtain ⟨r, hr, hid⟩ := ih c hc hf hi
    exact ⟨r, List.mem_cons_of_mem _ (preorder_subset_of_mem hc hr), hid⟩
  | repetition id name child count delimiter ih =>
    obtain ⟨parts, rfl, -, hp⟩ := h
    obtain ⟨atoms, ha, hi⟩ := slot_mem_joined hi
    obtain ⟨d, hd, rfl⟩ := mem_atomsAll.mp ha
    obtain ⟨r, hr, hid⟩ := ih (hp d hd) hi
    exact ⟨r, List.mem_cons_of_mem _ hr, hid⟩

theorem Fits.slot_mem {v : Variable} {d : Derivation} (h : Fits leaf counts v d) (hi : .slot i ∈ d.atoms) :
    i ∈ v.ids := by
  obtain ⟨r, hr, rfl⟩ := h.exists_relation hi
  exact List.mem_map_of_mem (f := Variable.id) hr

/-- A derivation of a tree without relations has all its bits. -/
theorem Fits.exists_ofBits {v : Variable} {d : Derivation} (h : Fits leaf counts v d)
    (free : ∀ r, .relation r ∉ v.preorder) : ∃ bits, d.atoms = Atom.ofBits bits := by
  refine Atom.exists_eq_ofBits fun i hi => ?_
  obtain ⟨r, hr, -⟩ := h.exists_relation hi
  exact free r hr

/-- Derivations of children one after the other. -/
theorem FitsAll.append {xs ys : List Variable} {ds es : List Derivation} (h : FitsAll leaf counts xs ds)
    (h' : FitsAll leaf counts ys es) : FitsAll leaf counts (xs ++ ys) (ds ++ es) := by
  induction xs generalizing ds with
  | nil =>
    obtain rfl : ds = [] := h
    exact h'
  | cons x xs ih =>
    obtain ⟨d, rest, rfl, hd, hr⟩ := h
    exact ⟨d, rest ++ es, rfl, hd, ih hr⟩

theorem fitsAll_count_le {children : List Variable}
    (one : ∀ c ∈ children, ∀ {d}, Fits leaf counts c d → d.atoms.count (.slot i) ≤ c.ids.count i)
    {parts : List Derivation} (h : FitsAll leaf counts children parts) :
    (Derivation.atomsAll parts).flatten.count (.slot i) ≤ (idsOf children).count i := by
  induction children generalizing parts with
  | nil =>
    obtain rfl : parts = [] := h
    exact Nat.le_refl _
  | cons c more ih =>
    obtain ⟨d, rest, rfl, hd, hr⟩ := h
    rw [Derivation.atomsAll, List.flatten_cons, List.count_append, idsOf_cons, List.count_append]
    exact Nat.add_le_add (one c List.mem_cons_self hd) (ih (fun c hc => one c (List.mem_cons_of_mem _ hc)) hr)

/-- A relation that is not repeated has no more places in a derivation than in the tree. -/
theorem Fits.count_slot_le {v : Variable} {d : Derivation} (h : Fits leaf counts v d) (hr : ¬ v.IsRepeated i) :
    d.atoms.count (.slot i) ≤ v.ids.count i := by
  induction v using Variable.induct generalizing d with
  | data id name type scope =>
    obtain ⟨bits, rfl, -⟩ := h
    have none : (Derivation.leaf bits).atoms.count (.slot i) = 0 := List.count_eq_zero.mpr Atom.slot_notMem_ofBits
    rw [none]
    exact Nat.zero_le _
  | relation r =>
    obtain rfl : d = .relation r.id := h
    rw [ids_relation, Derivation.atoms, List.count_singleton, List.count_singleton]
    simp
  | choice id name children ih =>
    obtain ⟨index, inner, rfl, hn⟩ := h
    obtain ⟨c, hc, hf⟩ := fitsNth_iff.mp hn
    have hm := List.mem_of_getElem? hc
    have own : inner.atoms.count (.slot i) ≤ c.ids.count i := ih c hm hf fun h => hr (h.of_child hm)
    have below : c.ids.count i ≤ (idsOf children).count i := (ids_sublist_idsOf hm).count_le i
    rw [ids_choice]
    exact (own.trans below).trans List.count_le_count_cons
  | sequence id name children ih =>
    obtain ⟨parts, rfl, hp⟩ := h
    rw [ids_sequence]
    exact (fitsAll_count_le (fun c hc _ hf => ih c hc hf fun h => hr (h.of_child hc)) hp).trans List.count_le_count_cons
  | repetition id name child count delimiter ih =>
    obtain ⟨parts, rfl, -, hp⟩ := h
    -- no place of it lies below the repetition
    have none : (Derivation.repetition delimiter parts).atoms.count (.slot i) = 0 := by
      refine List.count_eq_zero.mpr fun hi => ?_
      obtain ⟨atoms, ha, hi⟩ := slot_mem_joined hi
      obtain ⟨d, hd, rfl⟩ := mem_atomsAll.mp ha
      exact hr ⟨id, name, child, count, delimiter, self_mem_preorder _, (hp d hd).slot_mem hi⟩
    rw [none]
    exact Nat.zero_le _

end WireGrammar.Variable
