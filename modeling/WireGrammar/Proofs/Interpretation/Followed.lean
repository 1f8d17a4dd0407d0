import WireGrammar.Proofs.Generation.Runs
import WireGrammar.Proofs.Interpretation.ReadSteps
import WireGrammar.Proofs.Interpretation.Sizes

/-!
# Derivations are found

Where the bits of a derivation stand in the data, the search finds it (`Reading.Leads.finds`): one of the ways in which
it reads the variable makes the choices of the derivation, from the first leaf to the last. For this each leaf and each
relation on the way has to be readable as what the derivation has in its place (`Reading.Leads`), and no instance of a
repetition may be empty, for the search gives up those that are.
-/

namespace WireGrammar

theorem BitString.matchesAt_self (x : BitString) : x.matchesAt x 0 = true :=
  matchesAt_iff.mpr ⟨by rw [Nat.zero_add], by rw [Nat.zero_add, slice_length]⟩

theorem BitString.matchesAt_append {x y data : BitString} {offset : Nat} :
    (x ++ y).matchesAt data offset = true ↔
      x.matchesAt data offset = true ∧ y.matchesAt data (offset + x.length) = true := by
  simp only [matchesAt_iff, length_append]
  rw [← slice_append_slice data (Nat.le_add_right offset x.length)
    (show offset + x.length ≤ offset + (x.length + y.length) by omega), Nat.add_assoc]
  constructor
  · rintro ⟨hl, hs⟩
    have first : (data.slice offset (offset + x.length)).length = x.length := by
      rw [length_slice_of_le _ (Nat.le_add_right _ _) (by omega), Nat.add_sub_cancel_left]
    obtain ⟨hx, hy⟩ := append_inj hs first
    exact ⟨⟨by omega, hx⟩, hl, hy⟩
  · rintro ⟨⟨-, hx⟩, hl, hy⟩
    exact ⟨hl, by rw [hx, hy]⟩

namespace Assignment

variable {a b : Assignment} {id : VarId} {value : VarId → BitString} {V : VarId → BitString → Prop}

/-- A variable is as long as its content. -/
theorem length?_of_content? {content : Content} (h : a.content? id = some content) :
    a.length? id = a.measure content := by
  obtain ⟨entry, he, hc⟩ := Option.map_eq_some_iff.mp h
  unfold length?
  rw [he]
  cases entry with
  | content own =>
    cases hc
    rfl
  | cell cell =>
    cases hc
    have hcell : a.cell? id = some cell := cell?_eq_some_iff.mpr he
    cases hl : cell.length? with
    | none => simp [measure, Content.slot, chunkLength?, hcell, hl]
    | some n => simp [measure, Content.slot, chunkLength?, hcell, hl, totalLength]

/-- A record puts no value into a cell. -/
theorem cell?_of_record {content : Content} {q : VarId} {cell : Cell} (h : (a.record id content).cell? q = some cell) :
    a.cell? q = some cell := by
  have he := cell?_eq_some_iff.mp h
  rw [entry?_record] at he
  split at he
  · cases he
  · exact cell?_eq_some_iff.mpr he

/-- The slots are those of relations of the given variables, and these are recorded. -/
def Holds (vars : List Variable) (a : Assignment) (atoms : List Atom) : Prop :=
  ∀ q, .slot q ∈ atoms → ∃ r, .relation r ∈ vars ∧ r.id = q ∧ (a.cell? q).isSome

/-- The content of a variable has the given atoms, with values of some kind in place of some slots. -/
def Renders (vars : List Variable) (V : VarId → BitString → Prop) (a : Assignment) (id : VarId) (atoms : List Atom) :
    Prop :=
  ∃ content, a.content? id = some content ∧ Atom.Resolves V atoms content.atoms ∧ a.Holds vars content.atoms

/-- Relations that are recorded remain so. -/
def KeepsCells (vars : List Variable) (a b : Assignment) : Prop :=
  ∀ r, .relation r ∈ vars → (a.cell? r.id).isSome → (b.cell? r.id).isSome

section Renders

variable {vars : List Variable} {ids : List VarId} {atoms : List Atom}

theorem Holds.keeps (h : a.Holds vars atoms) (hk : KeepsCells vars a b) : b.Holds vars atoms := by
  intro q hq
  obtain ⟨r, hr, rfl, hc⟩ := h q hq
  exact ⟨r, hr, rfl, hk r hr hc⟩

theorem Holds.append {atoms' : List Atom} (h : a.Holds vars atoms) (h' : a.Holds vars atoms') :
    a.Holds vars (atoms ++ atoms') :=
  fun q hq => (List.mem_append.mp hq).elim (h q) (h' q)

/-- A variable goes on to show what it shows while others are recorded. -/
theorem Renders.grows (h : a.Renders vars V id atoms) (hg : Grows ids a b) (hid : id ∉ ids) (hk : KeepsCells vars a b) :
    b.Renders vars V id atoms := by
  obtain ⟨content, hc, hr, hs⟩ := h
  exact ⟨content, (hg.content?_eq hid).trans hc, hr, hs.keeps hk⟩

/-- Contents that are put together with the values of settled relations in them. -/
theorem exists_mapM_of_renders {children : List Variable} {parts : List Derivation}
    (h : List.Forall₂ (fun (c : Variable) (d : Derivation) => a.Renders vars V c.id d.atoms) children parts)
    (settled : ∀ q bits, a.isPending q = false → a.cell? q = some (.known bits) → V q bits) :
    ∃ contents, (children.mapM fun child => a.content? child.id) = some contents ∧
      Atom.Resolves V (Derivation.atomsAll parts).flatten
        (contents.flatMap fun (c : Content) => c.atoms.flatMap a.settleAtom) ∧
      a.Holds vars (contents.flatMap fun (c : Content) => c.atoms.flatMap a.settleAtom) := by
  induction h with
  | nil => exact ⟨[], rfl, .nil, fun q hq => nomatch hq⟩
  | cons hd _ ih =>
    obtain ⟨content, hc, hr, hs⟩ := hd
    obtain ⟨contents, hm, hres, hold⟩ := ih
    refine ⟨content :: contents, ?_, ?_, ?_⟩
    · rw [List.mapM_cons, hc, hm]
      rfl
    · rw [Derivation.atomsAll, List.flatten_cons, List.flatMap_cons]
      exact (freeze_resolves hr settled).append hres
    · rw [List.flatMap_cons]
      exact Holds.append (fun q hq => hs q (slot_mem_of_settled hq)) hold

/-- What a variable shows has the length of what is shown under the right values. -/
theorem Renders.length? (h : a.Renders vars V id atoms)
    (cells : ∀ r, .relation r ∈ vars → ∀ cell, a.cell? r.id = some cell → cell = .known (value r.id))
    (right : ∀ q bits, V q bits → value q = bits) : a.length? id = some (Atom.fill value atoms).length := by
  obtain ⟨content, hc, hr, hs⟩ := h
  have known (q : VarId) (hq : .slot q ∈ content.atoms) : a.slotLength? q = some (value q).length := by
    obtain ⟨r, hm, rfl, hcell⟩ := hs q hq
    obtain ⟨cell, hcell⟩ := Option.isSome_iff_exists.mp hcell
    rw [slotLength?, hcell, cells r hm cell hcell]
    rfl
  rw [length?_of_content? hc, hr.fill_eq right, Atom.length_fill]
  refine measure_eq_some_iff.mpr ⟨fun q hq => by rw [known q hq]; rfl, Atom.size_congr fun q hq => ?_⟩
  rw [known q hq, Option.getD_some]

end Renders

end Assignment

/-- A derivation that can be found: no instance in it is empty, and all relations in it are shown. -/
structure Derivation.Sought (value : VarId → BitString) (shown : VarId → Prop) (d : Derivation) : Prop where
  solid : d.Solid value
  shows : ∀ q, .slot q ∈ d.atoms → shown q

namespace Derivation.Sought

variable {value : VarId → BitString} {shown : VarId → Prop} {delimiter : Option BitString} {parts : List Derivation}
  {part : Derivation}

theorem chosen {index : Nat} {inner : Derivation} (h : (Derivation.choice index inner).Sought value shown) :
    inner.Sought value shown :=
  ⟨fun e he => h.solid e (.choice he), h.shows⟩

theorem part_of_sequence (h : (Derivation.sequence parts).Sought value shown) (hp : part ∈ parts) :
    part.Sought value shown :=
  ⟨fun e he => h.solid e (.part hp he), fun q hq =>
    h.shows q (List.mem_flatten.mpr ⟨part.atoms, Variable.mem_atomsAll.mpr ⟨part, hp, rfl⟩, hq⟩)⟩

/-- An instance can be found and is not empty. -/
theorem part_of_repetition (h : (Derivation.repetition delimiter parts).Sought value shown) (hp : part ∈ parts) :
    part.Sought value shown ∧ (part.bits value).length ≠ 0 :=
  ⟨⟨fun e he => h.solid e (.part hp he), fun q hq => h.shows q (mem_joined hp hq true)⟩,
    h.solid part (.repetition hp)⟩

end Derivation.Sought

namespace Reading

open Assignment Variable

/-! ## Reading what stands in the data -/

section Records

variable {reading : Reading} {a : Assignment} {offset : Nat} {id : VarId} {type : DataType} {scope : Scope}
  {bits : BitString}

theorem bitsAt_of_matchesAt (h : bits.matchesAt reading.data offset = true) :
    bits.length ≤ reading.remaining offset ∧ reading.bitsAt offset bits.length = bits := by
  obtain ⟨hl, hs⟩ := BitString.matchesAt_iff.mp h
  exact ⟨Nat.le_sub_of_add_le (Nat.add_comm offset _ ▸ hl), hs⟩

theorem mem_leafRecords_of_replayed (hr : a.replayed? id type scope = some bits)
    (h : bits.matchesAt reading.data offset = true) :
    a.record id (.ofBits bits) ∈ reading.leafRecords id type scope a offset := by
  unfold leafRecords
  rw [hr]
  dsimp only
  rw [if_pos h]
  exact List.mem_singleton_self _

theorem mem_leafRecords_of_accepts (hr : a.replayed? id type scope = none) (hs : scope ≠ .constant)
    (ha : type.accepts bits = true) (h : bits.matchesAt reading.data offset = true) :
    (a.learnFresh scope id bits).record id (.ofBits bits) ∈ reading.leafRecords id type scope a offset := by
  obtain ⟨hl, hb⟩ := bitsAt_of_matchesAt h
  unfold leafRecords
  rw [hr]
  dsimp only
  rw [if_neg hs]
  refine List.mem_filterMap.mpr ⟨bits.length, ?_, ?_⟩
  · exact DataType.mem_candidateLengths.mpr ⟨hl, DataType.acceptsLength_of_accepts ha⟩
  · rw [hb, if_pos ha]

theorem mem_relationRecords_of_ready {r : Relation} (hr : r.evaluate a = .ok (.ready bits))
    (h : bits.matchesAt reading.data offset = true) :
    a.setCell r.id (.known bits) ∈ reading.relationRecords r a offset := by
  unfold relationRecords
  rw [hr]
  dsimp only
  rw [if_pos h]
  exact List.mem_singleton_self _

theorem mem_relationRecords_of_waiting {r : Relation} (hr : r.evaluate a = .ok .waiting)
    (hc : bits.length ∈ r.candidateLengths (reading.remaining offset)) (hp : r.isPlausible bits = true)
    (h : bits.matchesAt reading.data offset = true) :
    (a.setCell r.id (.known bits)).awaitRelation r ∈ reading.relationRecords r a offset := by
  unfold relationRecords
  rw [hr]
  refine List.mem_filterMap.mpr ⟨bits.length, hc, ?_⟩
  rw [(bitsAt_of_matchesAt h).2, if_pos hp]

end Records

/-! ## Following a derivation -/

section Leads

variable (reading : Reading) (check : Assignment → Option Assignment) (vars : List Variable) (leaf : LeafRule)
  (value : VarId → BitString) (shown : VarId → Prop) (V : VarId → BitString → Prop) (On Open : Assignment → Prop)

/--
What leads a search along a derivation: wherever the bits of a leaf, or of a relation that is shown, stand in the data,
they can be read as such as long as the tree is open, every record on the way passes the check, and lengths are within
the bounds of their types.
-/
structure Leads : Prop where
  passes : ∀ {a}, On a → check a = some a
  record : ∀ {a v}, On a → v ∈ vars → v.isNode → ∀ content, On (a.record v.id content)
  data : ∀ {a id name type scope bits offset}, On a → .data id name type scope ∈ vars → leaf id type scope bits →
    bits.matchesAt reading.data offset = true →
    ∃ b, Grows [id] a b ∧ b.entries = a.entries ∧ On (b.record id (.ofBits bits)) ∧
      b.record id (.ofBits bits) ∈ reading.leafRecords id type scope a offset
  relation : ∀ {a r offset}, On a → Open a → .relation r ∈ vars → shown r.id →
    (value r.id).matchesAt reading.data offset = true →
    ∃ b ∈ reading.relationRecords r a offset, On b ∧ Grows [r.id] a b ∧ (b.cell? r.id).isSome
  cells : ∀ {a}, On a → ∀ r, .relation r ∈ vars → ∀ cell, a.cell? r.id = some cell → cell = .known (value r.id)
  settled : ∀ {a}, On a → ∀ q bits, a.isPending q = false → a.cell? q = some (.known bits) → V q bits
  right : ∀ q bits, V q bits → value q = bits
  leaf_within : ∀ {id type scope bits}, leaf id type scope bits → Within type.bounds bits.length
  relation_within : ∀ r, .relation r ∈ vars → shown r.id → Within r.type.bounds (value r.id).length
  stays : ∀ {v a b}, v ∈ vars → Grows (idsOf v.children) a b → Open a → Open b
  separate : ∀ {id name children}, .sequence id name children ∈ vars → children.Pairwise fun c d => c.id ∉ d.ids
  unique : ∀ {v w}, v ∈ vars → w ∈ vars → v.id = w.id → v = w

/-- An assignment to which a derivation of a variable leads. -/
structure Found (v : Variable) (a b : Assignment) (d : Derivation) : Prop where
  on : On b
  grows : Grows v.ids a b
  keeps : KeepsCells vars a b
  renders : b.Renders vars V v.id d.atoms

/-- An assignment to which derivations of variables in a row lead. -/
structure FoundAll (children : List Variable) (a b : Assignment) (parts : List Derivation) : Prop where
  on : On b
  grows : Grows (idsOf children) a b
  keeps : KeepsCells vars a b
  renders : List.Forall₂ (fun (c : Variable) (d : Derivation) => b.Renders vars V c.id d.atoms) children parts

/-- Wherever the bits of a derivation of a variable stand in the data, the search finds it. -/
def Finds (v : Variable) : Prop :=
  ∀ {d a offset}, Fits leaf (CountsTo none reading.maxRepeat) v d → d.Sought value shown → On a →
    Open a → (d.bits value).matchesAt reading.data offset = true →
    ∃ b ∈ reading.recordsWith check v a offset, Found vars V On v a b d

end Leads

namespace Leads

variable {reading : Reading} {check : Assignment → Option Assignment} {vars : List Variable} {leaf : LeafRule}
  {value : VarId → BitString} {shown : VarId → Prop} {V : VarId → BitString → Prop} {On Open : Assignment → Prop}
  {a b c : Assignment} {offset : Nat}

theorem keepsCells_record (L : Leads reading check vars leaf value shown V On Open) {v : Variable} (hv : v ∈ vars)
    (hn : v.relation? = none) (content : Content) : KeepsCells vars a (a.record v.id content) := by
  intro r hr hc
  rwa [cell?_record_of_ne]
  intro he
  rw [← L.unique hr hv he] at hn
  cases hn

/-- The delimiter before an instance is passed where it stands in the data. -/
theorem passDelimiter?_eq_some {delimiter : Option BitString} {isFirst : Bool} (before : Content)
    (stands : (Atom.fill value (Derivation.delimiterAtoms delimiter isFirst)).matchesAt reading.data offset = true) :
    ∃ content, reading.passDelimiter? delimiter isFirst offset before =
        some (offset + (Atom.fill value (Derivation.delimiterAtoms delimiter isFirst)).length, content) ∧
      content.atoms = before.atoms ++ Derivation.delimiterAtoms delimiter isFirst := by
  unfold Derivation.delimiterAtoms at stands ⊢
  cases isFirst with
  | true => cases delimiter <;> exact ⟨before, rfl, (List.append_nil _).symm⟩
  | false =>
    cases delimiter with
    | none => exact ⟨before, rfl, (List.append_nil _).symm⟩
    | some d =>
      simp only [Bool.false_eq_true, if_false, Option.elim_some, Atom.fill_ofBits] at stands ⊢
      exact ⟨before.pushBits d, by rw [passDelimiter?, if_pos stands], Content.atoms_pushBits _ _⟩

variable (L : Leads reading check vars leaf value shown V On Open)

include L

/-- What is recorded for a node renders its derivation. -/
theorem found_record {v : Variable} (hv : v ∈ vars) (hn : v.isNode) (hb : On b) (hg : Grows (idsOf v.children) a b)
    (hk : KeepsCells vars a b) {d : Derivation} {content : Content} (hr : Atom.Resolves V d.atoms content.atoms)
    (hs : b.Holds vars content.atoms) : Found vars V On v a (b.record v.id content) d := by
  have own := L.keepsCells_record (a := b) hv (relation?_of_isNode hn) content
  refine ⟨L.record hb hv hn content, ?_, fun r hm hc => own r hm (hk r hm hc), content, ?_, hr, hs.keeps own⟩
  · rw [ids_eq]
    exact (hg.mono (List.subset_cons_self _ _)).record List.mem_cons_self _
  · exact content?_of_record (entry?_record_self _ _)

theorem consumed_eq {v : Variable} {d : Derivation} (h : Found vars V On v a b d) :
    b.consumed v = (d.bits value).length := by
  rw [consumed, h.renders.length? (L.cells h.on) L.right, Option.getD_some]
  rfl

theorem searchAll_finds {children : List Variable} (hc : preorderAll children ⊆ vars)
    (separate : children.Pairwise fun c d => c.id ∉ d.ids) 
    (stays : ∀ {x y}, Grows (idsOf children) x y → Open x → Open y)
    (one : ∀ c ∈ children, Finds reading check vars leaf value shown V On Open c) {parts : List Derivation}
    (fits : FitsAll leaf (CountsTo none reading.maxRepeat) children parts)
    (sought : ∀ d ∈ parts, d.Sought value shown) (ha : On a) (hopen : Open a)
    (stands : (Atom.fill value (Derivation.atomsAll parts).flatten).matchesAt reading.data offset = true) :
    ∃ p ∈ reading.searchAll check children a offset, FoundAll vars V On children a p.1 parts := by
  induction children generalizing parts a offset with
  | nil =>
    obtain rfl : parts = [] := fits
    exact ⟨(a, offset), by rw [searchAll]; exact List.mem_singleton_self _, ha, .refl _ a, fun _ _ h => h, .nil⟩
  | cons v more ih =>
    obtain ⟨d, rest, rfl, hd, hrest⟩ := fits
    obtain ⟨hv, hmore⟩ := List.append_subset.mp hc
    obtain ⟨apart, separate⟩ := List.pairwise_cons.mp separate
    obtain ⟨own, others⟩ := List.forall_mem_cons.mp sought
    rw [idsOf_cons] at stays
    rw [Derivation.atomsAll, List.flatten_cons, Atom.fill_append, BitString.matchesAt_append] at stands
    obtain ⟨b, hb, found⟩ := one v List.mem_cons_self hd own ha hopen stands.1
    have next := stands.2
    rw [show (Atom.fill value d.atoms).length = b.consumed v from (L.consumed_eq found).symm] at next
    obtain ⟨p, hp, all⟩ := ih hmore separate (fun hg => stays (hg.mono (List.subset_append_right _ _)))
      (fun c hc => one c (List.mem_cons_of_mem _ hc)) hrest others found.on
      (stays (found.grows.mono (List.subset_append_left _ _)) hopen) next
    refine ⟨p, ?_, all.on, ?_, fun r hr h => all.keeps r hr (found.keeps r hr h), .cons ?_ all.renders⟩
    · rw [searchAll]
      exact List.mem_flatMap.mpr ⟨b, List.mem_filterMap.mpr ⟨b, hb, L.passes found.on⟩, hp⟩
    · rw [idsOf_cons]
      exact (found.grows.mono (List.subset_append_left _ _)).trans (all.grows.mono (List.subset_append_right _ _))
    · refine found.renders.grows all.grows (fun hi => ?_) all.keeps
      obtain ⟨c, hc, hi⟩ := mem_idsOf.mp hi
      exact apart c hc hi

/-- A node is recorded from children that are found. -/
theorem exists_composed {v : Variable} (hv : v ∈ vars) (hn : v.isNode) {children : List Variable}
    (hc : idsOf children ⊆ idsOf v.children) {parts : List Derivation} (all : FoundAll vars V On children a b parts)
    {d : Derivation} (hd : d.atoms = (Derivation.atomsAll parts).flatten) :
    ∃ c, b.composed? v.id children = some c ∧ Found vars V On v a c d := by
  obtain ⟨contents, hm, hr, hs⟩ := exists_mapM_of_renders all.renders (L.settled all.on)
  refine ⟨_, by rw [composed?, hm]; rfl, L.found_record hv hn all.on (all.grows.mono hc) all.keeps ?_ ?_⟩
  · rwa [atoms_foldl_freeze, Content.atoms_empty, List.nil_append, hd]
  · rwa [atoms_foldl_freeze, Content.atoms_empty, List.nil_append]

/-- What instances of a repetition lead to, behind the content of what came before. -/
theorem instances_finds {child : Variable} (one : Finds reading check vars leaf value shown V On Open child)
    {delimiter : Option BitString} {parts : List Derivation}
    (fits : ∀ part ∈ parts, Fits leaf (CountsTo none reading.maxRepeat) child part)
    (sought : ∀ part ∈ parts, part.Sought value shown ∧ (part.bits value).length ≠ 0)
    (stays : ∀ {x y}, Grows child.ids x y → Open x → Open y) (isFirst : Bool) (before : Content) (ha : On a)
    (hopen : Open a)
    (stands : (Atom.fill value (Derivation.joined delimiter isFirst (Derivation.atomsAll parts))).matchesAt reading.data
      offset = true) :
    ∃ p ∈ (reading.instances (fun a offset => .ofList ((reading.recordsWith check child a offset).filterMap check))
        child delimiter parts.length isFirst a offset before).toList,
      On p.1 ∧ Grows child.ids a p.1 ∧ KeepsCells vars a p.1 ∧ ∃ atoms, p.2.atoms = before.atoms ++ atoms ∧
        Atom.Resolves V (Derivation.joined delimiter isFirst (Derivation.atomsAll parts)) atoms ∧
        p.1.Holds vars atoms := by
  induction parts generalizing isFirst before a offset with
  | nil =>
    refine ⟨(a, before), ?_, ha, .refl _ a, fun _ _ h => h, [], (List.append_nil _).symm, .nil, fun q hq => nomatch hq⟩
    rw [List.length_nil, toList_instances_zero]
    exact List.mem_singleton_self _
  | cons d rest ih =>
    obtain ⟨hd, hrest⟩ := List.forall_mem_cons.mp fits
    obtain ⟨⟨inner, filled⟩, others⟩ := List.forall_mem_cons.mp sought
    rw [Derivation.atomsAll, Derivation.joined, Atom.fill_append, BitString.matchesAt_append, Atom.fill_append,
      BitString.matchesAt_append, BitString.length_append, ← Nat.add_assoc] at stands
    obtain ⟨⟨delimited, own⟩, later⟩ := stands
    obtain ⟨content, hpass, hcontent⟩ := passDelimiter?_eq_some before delimited
    obtain ⟨b, hb, found⟩ := one hd inner ha hopen own
    have hn : b.consumed child = (d.bits value).length := L.consumed_eq found
    obtain ⟨inside, hinside, hres, hold⟩ := found.renders
    rw [show (Atom.fill value d.atoms).length = b.consumed child from hn.symm] at later
    obtain ⟨p, hp, on, grows, keeps, atoms, hatoms, hrestres, hrestold⟩ :=
      ih hrest others false (content.append (b.freeze inside)) found.on (stays found.grows hopen) later
    refine ⟨p, ?_, on, found.grows.trans grows, fun r hr h => keeps r hr (found.keeps r hr h),
      Derivation.delimiterAtoms delimiter isFirst ++ inside.atoms.flatMap b.settleAtom ++ atoms, ?_, ?_, ?_⟩
    · rw [List.length_cons, mem_instances_succ]
      refine ⟨_, content, hpass, b, ?_, hn ▸ filled, inside, hinside, hp⟩
      rw [Choices.toList_ofList]
      exact List.mem_filterMap.mpr ⟨b, hb, L.passes found.on⟩
    · rw [hatoms, Content.atoms_append, atoms_freeze, hcontent]
      simp only [List.append_assoc]
    · exact ((Atom.Resolves.refl _).append (freeze_resolves hres (L.settled found.on))).append hrestres
    · refine Holds.append (Holds.append (fun q hq => ?_) fun q hq => ?_) hrestold
      · unfold Derivation.delimiterAtoms at hq
        split at hq
        · cases hq
        · cases delimiter with
          | none => cases hq
          | some d => exact absurd hq Atom.slot_notMem_ofBits
      · exact (hold.keeps keeps) q (slot_mem_of_settled hq)

/-- A count is tried when so many instances stand in the data, none of them empty. -/
theorem mem_counts_of_fits {child : Variable} (hv : child.preorder ⊆ vars) {count : RepeatCount}
    {delimiter : Option BitString} {parts : List Derivation}
    (fits : ∀ part ∈ parts, Fits leaf (CountsTo none reading.maxRepeat) child part)
    (sought : ∀ part ∈ parts, part.Sought value shown ∧ (part.bits value).length ≠ 0)
    (hk : count.least ≤ parts.length ∧ parts.length < min count.stop (max reading.maxRepeat (count.least + 1)))
    (stands : ((Derivation.repetition delimiter parts).bits value).matchesAt reading.data offset = true) :
    parts.length ∈ reading.counts child count delimiter offset := by
  have each (part : Derivation) (h : part ∈ parts) :
      Within (max child.bounds.1 1, none) (part.bits value).length := by
    have own : Within child.bounds (part.bits value).length :=
      (fits part h).within L.leaf_within
        (fun hc => ⟨(hc rfl).1, (hc rfl).2.trans_le (Nat.min_le_left _ _)⟩) fun r hr hs =>
          L.relation_within r (hv hr) ((sought part h).1.shows r.id hs)
    exact ⟨Nat.max_le.mpr ⟨own.1, Nat.pos_of_ne_zero (sought part h).2⟩, fun _ hg => nomatch hg⟩
  have fit := (BitString.matchesAt_iff.mp stands).1
  refine mem_counts.mpr ⟨hk, ((Derivation.within_joined each true).1.trans ?_)⟩
  exact Nat.le_sub_of_add_le (Nat.add_comm offset _ ▸ fit)

/-- The search finds each derivation of which no instance of a repetition is empty. -/
theorem finds (v : Variable) (hv : v.preorder ⊆ vars) : Finds reading check vars leaf value shown V On Open v := by
  induction v using Variable.induct with
  | data id name type scope =>
    intro d a offset fits sought ha hopen stands
    obtain ⟨bits, rfl, hb⟩ := fits
    rw [Derivation.bits, Derivation.atoms, Atom.fill_ofBits] at stands
    obtain ⟨b, hg, he, on, hmem⟩ := L.data ha (hv (self_mem_preorder _)) hb stands
    refine ⟨_, by rwa [recordsWith], on, ?_, ?_, .ofBits bits, content?_of_record (entry?_record_self _ _), ?_, ?_⟩
    · rw [ids_data]
      exact hg.record (List.mem_singleton_self _) _
    · have cells : KeepsCells vars b (b.record id (.ofBits bits)) :=
        L.keepsCells_record (v := .data id name type scope) (hv (self_mem_preorder _)) rfl _
      intro r hr hc
      refine cells r hr ?_
      rwa [cell?, entry?, he, ← entry?, ← cell?]
    · rw [Derivation.atoms, Content.atoms_ofBits]
      exact .refl _
    · intro q hq
      rw [Content.atoms_ofBits] at hq
      exact absurd hq Atom.slot_notMem_ofBits
  | relation r =>
    intro d a offset fits sought ha hopen stands
    obtain rfl : d = .relation r.id := fits
    rw [Derivation.bits, Derivation.atoms, Atom.fill_slot] at stands
    have hr : .relation r ∈ vars := hv (self_mem_preorder _)
    obtain ⟨b, hb, on, hg, hc⟩ := L.relation ha hopen hr (sought.shows r.id (List.mem_singleton_self _)) stands
    refine ⟨b, by rwa [recordsWith], on, by rwa [ids_relation], fun q hq h => ?_, .slot r.id, content?_of_cell? hc, ?_,
      fun q hq => ?_⟩
    · by_cases he : q.id = r.id
      · rwa [he]
      · rwa [hg.cell?_eq fun hm => he (List.mem_singleton.mp hm)]
    · rw [Derivation.atoms, Content.atoms_slot]
      exact .refl _
    · rw [Content.atoms_slot, List.mem_singleton] at hq
      cases hq
      exact ⟨r, hr, rfl, hc⟩
  | choice id name children ih =>
    intro d a offset fits sought ha hopen stands
    obtain ⟨index, inner, rfl, hn⟩ := fits
    obtain ⟨c, hi, hf⟩ := fitsNth_iff.mp hn
    have hm := List.mem_of_getElem? hi
    obtain ⟨b, hb, found⟩ := ih c hm (fun x hx => hv (List.mem_cons_of_mem _ (preorder_subset_of_mem hm hx))) hf
      sought.chosen ha hopen stands
    have all : FoundAll vars V On [c] a b [inner] :=
      ⟨found.on, by rw [idsOf_cons, idsOf_nil, List.append_nil]; exact found.grows, found.keeps,
        .cons found.renders .nil⟩
    obtain ⟨e, he, composed⟩ := L.exists_composed (hv (self_mem_preorder _)) rfl
      (by rw [idsOf_cons, idsOf_nil, List.append_nil]; exact ids_subset_of_mem hm) all (d := .choice index inner)
      (by rw [Derivation.atoms, Derivation.atomsAll, Derivation.atomsAll, List.flatten_singleton])
    refine ⟨e, ?_, composed⟩
    rw [recordsWith, mem_recordsOfAny]
    exact ⟨c, hm, b, List.mem_filterMap.mpr ⟨b, hb, L.passes found.on⟩, he⟩
  | sequence id name children ih =>
    intro d a offset fits sought ha hopen stands
    obtain ⟨parts, rfl, hp⟩ := fits
    have below : preorderAll children ⊆ vars := fun x hx => hv (List.mem_cons_of_mem _ hx)
    have one (c : Variable) (hc : c ∈ children) :
        Finds reading check vars leaf value shown V On Open c :=
      ih c hc fun x hx => below (preorder_subset_of_mem hc hx)
    obtain ⟨p, hp, all⟩ := L.searchAll_finds below (L.separate (hv (self_mem_preorder _)))
      (L.stays (hv (self_mem_preorder _))) one hp (fun d hd => sought.part_of_sequence hd) ha hopen stands
    obtain ⟨e, he, found⟩ := L.exists_composed (hv (self_mem_preorder _)) rfl (List.Subset.refl _) all
      (d := .sequence parts) rfl
    exact ⟨e, by rw [recordsWith]; exact List.mem_filterMap.mpr ⟨p, hp, he⟩, found⟩
  | repetition id name child count delimiter ih =>
    intro d a offset fits sought ha hopen stands
    obtain ⟨parts, rfl, hk, hp⟩ := fits
    have below : child.preorder ⊆ vars := fun x hx => hv (List.mem_cons_of_mem _ hx)
    have stays {x y : Assignment} (hg : Grows child.ids x y) : Open x → Open y := by
      refine L.stays (hv (self_mem_preorder _)) ?_
      rwa [children, idsOf_cons, idsOf_nil, List.append_nil]
    have each (part : Derivation) (h : part ∈ parts) := sought.part_of_repetition h
    obtain ⟨p, hp', on, grows, keeps, atoms, hatoms, hres, hold⟩ := L.instances_finds (ih below) hp each stays true
      .empty ha hopen stands
    rw [Content.atoms_empty, List.nil_append] at hatoms
    refine ⟨p.1.record id p.2, ?_, L.found_record (v := .repetition id name child count delimiter)
      (hv (self_mem_preorder _)) rfl on ?_ keeps (hatoms ▸ hres) (hatoms ▸ hold)⟩
    · rw [recordsWith, List.mem_flatMap]
      exact ⟨parts.length, L.mem_counts_of_fits below hp each (hk rfl) stands,
        List.mem_map.mpr ⟨p, hp', rfl⟩⟩
    · rw [children, idsOf_cons, idsOf_nil, List.append_nil]
      exact grows

end Leads

end Reading

end WireGrammar
