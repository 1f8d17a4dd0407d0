import Mathlib.Logic.Relation
import WireGrammar.Proofs.Interpretation.Search
import WireGrammar.Proofs.Interpretation.Waiting
import WireGrammar.Proofs.Relation.Stability

/-!
# Steps of the search that checks nothing

Reading a variable makes one record after the other (`ReadStep`), those of the variables below it before its own
(`records_steps`). Which relations wait already plays no part in it, and neither does a check that lets every record
pass (`recordsWith_behind`).
-/

namespace WireGrammar

namespace Assignment

variable {a b : Assignment} {all vars : List Variable}

/-- The slots in what is put into a node for a variable are those of relations below the variable. -/
theorem Homed.slot_mem (h : a.Homed all) {v : Variable} (hv : v ∈ all) {content : Content}
    (hc : a.content? v.id = some content) {q : VarId} (hq : .slot q ∈ content.atoms) : q ∈ v.ids := by
  obtain ⟨entry, he, hcontent⟩ := Option.map_eq_some_iff.mp hc
  cases entry with
  | content c =>
    cases hcontent
    exact h v hv c he q hq
  | cell cell =>
    cases hcontent
    cases List.mem_singleton.mp hq
    exact v.id_mem_ids

/-- The slots in what is put into a node are those of recorded relations. -/
theorem Closed.slot_isSome (h : a.Closed all) {id : VarId} {content : Content} (hc : a.content? id = some content)
    {q : VarId} (hq : .slot q ∈ content.atoms) : (a.cell? q).isSome := by
  obtain ⟨entry, he, hcontent⟩ := Option.map_eq_some_iff.mp hc
  cases entry with
  | content c =>
    cases hcontent
    exact h.slots he q hq
  | cell cell =>
    cases hcontent
    cases List.mem_singleton.mp hq
    exact Option.isSome_iff_exists.mpr ⟨cell, cell?_eq_some_iff.mpr he⟩

theorem Homed.record (h : a.Homed all) (unique : ∀ {v w}, v ∈ all → w ∈ all → v.id = w.id → v = w) {v : Variable}
    (hv : v ∈ all) {content : Content} (hs : ∀ q, .slot q ∈ content.atoms → q ∈ v.ids) :
    (a.record v.id content).Homed all := by
  intro w hw c hc q hq
  rw [entry?_record] at hc
  split at hc
  next he =>
    cases hc
    rw [unique hw hv he]
    exact hs q hq
  next => exact h w hw c hc q hq

theorem Homed.setCell (h : a.Homed all) (id : VarId) (cell : Cell) : (a.setCell id cell).Homed all := by
  intro w hw c hc q hq
  rw [entry?_setCell] at hc
  split at hc
  · cases hc
  · exact h w hw c hc q hq

/-- The record of a variable that is made once all below it are made. -/
inductive ReadStep : Variable → Assignment → Assignment → Prop where
  | record {v : Variable} {a b : Assignment} {content : Content} (hv : v.relation? = none)
    (hl : b = a ∨ ∃ value, b = a.learn v.id value)
    (hs : ∀ q, .slot q ∈ content.atoms → q ∈ Variable.idsOf v.children ∧ (a.cell? q).isSome) :
    ReadStep v a (b.record v.id content)
  | value {r : Relation} {a : Assignment} {bits : BitString} (h : r.Computes a bits) :
    ReadStep (.relation r) a (a.setCell r.id (.known bits))
  | wait {r : Relation} {a : Assignment} {bits : BitString} (h : r.evaluate a = .ok .waiting) :
    ReadStep (.relation r) a ((a.setCell r.id (.known bits)).awaitRelation r)

namespace ReadStep

variable {v : Variable} (h : ReadStep v a b)

include h

theorem grows : Grows [v.id] a b := by
  have own : v.id ∈ [v.id] := List.mem_singleton_self _
  cases h with
  | record hv hl hs =>
    refine Grows.record ?_ own _
    rcases hl with rfl | ⟨value, rfl⟩
    · exact .refl _ _
    · exact (Grows.refl _ a).learn own value
  | value h => exact (Grows.refl _ a).setCell own _
  | wait h => exact ((Grows.refl _ a).setCell own _).awaitRelation _

/-- A variable is recorded with its own step. -/
theorem isSome_entry? : (b.entry? v.id).isSome := by
  cases h with
  | record hv hl hs => rw [entry?_record, if_pos rfl]; rfl
  | value h => rw [Variable.id, entry?_setCell, if_pos rfl]; rfl
  | wait h => rw [Variable.id, entry?, entries_awaitRelation, ← entry?, entry?_setCell, if_pos rfl]; rfl

/-- A relation waits after a step if it did before, or if the step is its own. -/
theorem pending {q : Relation} (hq : q ∈ b.pending) : q ∈ a.pending ∨ v = .relation q := by
  cases h with
  | record hv hl hs => rcases hl with rfl | ⟨value, rfl⟩ <;> exact Or.inl hq
  | value h => exact Or.inl hq
  | wait h =>
    exact (List.mem_append.mp (pending_awaitRelation _ hq)).imp_right fun hq => by rw [List.mem_singleton.mp hq]

section Invariants

variable (unique : ∀ {v w}, v ∈ all → w ∈ all → v.id = w.id → v = w) (hv : v ∈ all)

include unique hv

theorem homed (ha : a.Homed all) : b.Homed all := by
  cases h with
  | record hr hl hs =>
    refine Homed.record ?_ unique hv fun q hq => ?_
    · rcases hl with rfl | ⟨value, rfl⟩
      · exact ha
      · exact ha.congr rfl
    · rw [Variable.ids_eq]
      exact List.mem_cons_of_mem _ (hs q hq).1
  | value h => exact ha.setCell _ _
  | wait h => exact (ha.setCell _ _).congr (entries_awaitRelation _ _)

theorem closed (ha : a.Closed all) : b.Closed all := by
  cases h with
  | @record _ _ x content hr hl hs =>
    have entries : x.entries = a.entries := by
      rcases hl with rfl | ⟨value, rfl⟩ <;> rfl
    have cells : ∀ id, x.cell? id = a.cell? id := fun id => by rw [cell?, entry?, entries, cell?, entry?]
    refine (ha.congr entries).record ?_ fun q hq => by rw [cells]; exact (hs q hq).2
    rw [cells]
    exact ha.cell?_eq_none unique hv hr
  | value h => exact ha.setCell hv _
  | wait h => exact (ha.setCell hv _).congr (entries_awaitRelation _ _)

/-- A relation that has a value keeps one. -/
theorem isSome_cell? (ha : a.Closed all) {q : VarId} (hq : (a.cell? q).isSome) : (b.cell? q).isSome := by
  cases h with
  | record hr hl hs =>
    have ne : q ≠ v.id := by
      rintro rfl
      rw [ha.cell?_eq_none unique hv hr] at hq
      cases hq
    rw [cell?_record_of_ne ne]
    rcases hl with rfl | ⟨value, rfl⟩ <;> exact hq
  | value h =>
    rw [cell?_setCell]
    split
    · rfl
    · exact hq
  | wait h =>
    rw [cell?_awaitRelation, cell?_setCell]
    split
    · rfl
    · exact hq

end Invariants

/-- A relation has a value after its own step. -/
theorem isSome_cell?_self {r : Relation} (hr : v = .relation r) : (b.cell? r.id).isSome := by
  subst hr
  cases h with
  | record hv hl hs => cases hv
  | value h => rw [cell?_setCell, if_pos rfl]; rfl
  | wait h => rw [cell?_awaitRelation, cell?_setCell, if_pos rfl]; rfl

/-- What is true while the variables below a field are read stays true with each step. -/
theorem underway {f : Variable} {start : Assignment} {late : VarId → Bool} (hf : Tidy all f start late)
    (ha : Underway all f start late a) (hv : v ∈ Variable.preorderAll f.children) : Underway all f start late b := by
  cases h with
  | record hr hl hs =>
    refine ha.record hf hv hr ?_ fun q hq => (hs q hq).2
    rcases hl with rfl | ⟨value, rfl⟩
    · exact ⟨.refl _ _, rfl, rfl⟩
    · exact ⟨(Grows.refl _ a).learn (List.mem_singleton_self _) value, rfl, rfl⟩
  | value hc =>
    refine ha.setCell hf hv (fun hw => ?_) _
    rcases hc with hc | ⟨n, hc, -⟩ <;> rw [hc] at hw <;> cases hw
  | wait hw => exact ha.await hf hv hw _

end ReadStep

/-- An assignment in which other relations have waited for longer. -/
def behind (a : Assignment) (front : List Relation) : Assignment :=
  { a with pending := front ++ a.pending }

/-- Records of the given variables, made one after the other. -/
def ReadSteps (vars : List Variable) : Assignment → Assignment → Prop :=
  Relation.ReflTransGen fun a b => ∃ v ∈ vars, ReadStep v a b

namespace ReadSteps

theorem refl (vars : List Variable) (a : Assignment) : ReadSteps vars a a :=
  Relation.ReflTransGen.refl

theorem step {v : Variable} {c : Assignment} (h : ReadSteps vars a b) (hv : v ∈ vars) (hs : ReadStep v b c) :
    ReadSteps vars a c :=
  Relation.ReflTransGen.tail h ⟨v, hv, hs⟩

theorem trans {c : Assignment} (h : ReadSteps vars a b) (h' : ReadSteps vars b c) : ReadSteps vars a c :=
  Relation.ReflTransGen.trans h h'

theorem mono {vars' : List Variable} (h : ReadSteps vars a b) (hs : vars ⊆ vars') : ReadSteps vars' a b :=
  Relation.ReflTransGen.mono (fun _ _ ⟨v, hv, h⟩ => ⟨v, hs hv, h⟩) _ _ h

/-- What each step preserves, all steps preserve. -/
theorem invariant {P : Assignment → Prop} (h : ReadSteps vars a b)
    (step : ∀ v ∈ vars, ∀ {x y}, P x → ReadStep v x y → P y) (ha : P a) : P b := by
  induction h with
  | refl => exact ha
  | tail _ h ih =>
    obtain ⟨v, hv, h⟩ := h
    exact step v hv ih h

theorem grows (h : ReadSteps vars a b) : Grows (vars.map Variable.id) a b :=
  h.invariant (fun _ hv _ _ hx hs => hx.trans (hs.grows.mono (List.cons_subset.mpr
    ⟨List.mem_map_of_mem hv, List.nil_subset _⟩))) (.refl _ a)

section Invariants

variable (h : ReadSteps vars a b) (unique : ∀ {v w}, v ∈ all → w ∈ all → v.id = w.id → v = w) (hv : vars ⊆ all)

include h unique hv

theorem homed (ha : a.Homed all) : b.Homed all :=
  h.invariant (fun _ hm _ _ hx hs => hs.homed unique (hv hm) hx) ha

theorem closed (ha : a.Closed all) : b.Closed all :=
  h.invariant (fun _ hm _ _ hx hs => hs.closed unique (hv hm) hx) ha

theorem isSome_cell? (ha : a.Closed all) {q : VarId} (hq : (a.cell? q).isSome) : (b.cell? q).isSome :=
  (h.invariant (P := fun x => x.Closed all ∧ (x.cell? q).isSome) (fun _ hm _ _ hx hs =>
    ⟨hs.closed unique (hv hm) hx.1, hs.isSome_cell? unique (hv hm) hx.1 hx.2⟩) ⟨ha, hq⟩).2

end Invariants

/-- What waits after steps waited before, or is one of the variables and has a value. -/
theorem pending (h : ReadSteps vars a b) (unique : ∀ {v w}, v ∈ all → w ∈ all → v.id = w.id → v = w)
    (hv : vars ⊆ all) (ha : a.Closed all) (waits : ∀ q ∈ a.pending, (a.cell? q.id).isSome) :
    ∀ q ∈ b.pending, (q ∈ a.pending ∨ .relation q ∈ vars) ∧ (b.cell? q.id).isSome := by
  refine (h.invariant (P := fun x => x.Closed all ∧ ∀ q ∈ x.pending, (q ∈ a.pending ∨ .relation q ∈ vars) ∧
    (x.cell? q.id).isSome) (fun v hm x y hx hs => ⟨hs.closed unique (hv hm) hx.1, fun q hq => ?_⟩)
    ⟨ha, fun q hq => ⟨Or.inl hq, waits q hq⟩⟩).2
  rcases hs.pending hq with hq | rfl
  · exact (hx.2 q hq).imp_right (hs.isSome_cell? unique (hv hm) hx.1)
  · exact ⟨Or.inr hm, hs.isSome_cell?_self rfl⟩

theorem underway {f : Variable} {start : Assignment} {late : VarId → Bool} (hf : Tidy all f start late)
    (ha : Underway all f start late a) (h : ReadSteps (Variable.preorderAll f.children) a b) :
    Underway all f start late b :=
  h.invariant (fun _ hv _ _ hx hs => hs.underway hf hx hv) ha

end ReadSteps

end Assignment

namespace Reading

open Assignment Variable

section Steps

variable {reading : Reading} {a b : Assignment} {offset : Nat} {all vars : List Variable}

theorem leafRecords_step {id : VarId} {name : String} {type : DataType} {scope : Scope}
    (hb : b ∈ reading.leafRecords id type scope a offset) : ReadStep (.data id name type scope) a b := by
  have none {value : BitString} (q : VarId) (hq : .slot q ∈ (Content.ofBits value).atoms) :
      q ∈ idsOf (Variable.data id name type scope).children ∧ (a.cell? q).isSome := by
    rw [Content.atoms_ofBits] at hq
    exact absurd hq Atom.slot_notMem_ofBits
  unfold leafRecords at hb
  split at hb
  next value h =>
    split at hb
    · rw [List.mem_singleton.mp hb]
      exact .record (v := .data id name type scope) rfl (Or.inl rfl) none
    · cases hb
  next h =>
    split at hb
    · cases hb
    · obtain ⟨length, -, hb⟩ := List.mem_filterMap.mp hb
      dsimp only at hb
      split at hb
      · cases hb
        refine .record (v := .data id name type scope) rfl ?_ none
        unfold learnFresh
        split
        · exact Or.inl rfl
        · exact Or.inr ⟨_, rfl⟩
      · cases hb

theorem relationRecords_step {r : Relation} (hb : b ∈ reading.relationRecords r a offset) :
    ReadStep (.relation r) a b := by
  unfold relationRecords at hb
  split at hb
  next expected h =>
    split at hb
    · rw [List.mem_singleton.mp hb]
      exact .value (Or.inl h)
    · cases hb
  next n h =>
    dsimp only at hb
    split at hb
    next hn =>
      rw [List.mem_singleton.mp hb]
      refine .value (Or.inr ⟨n, h, ?_⟩)
      have hle := hn.1
      unfold remaining at hle
      rw [bitsAt, BitString.length_slice]
      omega
    next => cases hb
  next h =>
    obtain ⟨length, -, hb⟩ := List.mem_filterMap.mp hb
    dsimp only at hb
    split at hb
    · cases hb
      exact .wait h
    · cases hb
  next => cases hb

/-- A node is recorded with slots of recorded relations below it. -/
theorem composed?_step {v : Variable} (hn : v.relation? = none) {children : List Variable} (hc : children ⊆ v.children)
    (homed : a.Homed all) (closed : a.Closed all) (hv : preorderAll v.children ⊆ all)
    (hb : a.composed? v.id children = some b) : ReadStep v a b := by
  obtain ⟨contents, hcontents, hb⟩ := Option.bind_eq_some_iff.mp hb
  cases hb
  refine .record hn (Or.inl rfl) fun q hq => ?_
  rw [atoms_foldl_freeze, Content.atoms_empty, List.nil_append, ← List.flatMap_assoc] at hq
  obtain ⟨content, hm, hq⟩ := List.mem_flatMap.mp (slot_mem_of_settled hq)
  obtain ⟨child, hchild, hcontent⟩ := exists_of_mem_mapM hcontents hm
  have hmem := hc hchild
  refine ⟨ids_subset_of_mem hmem ?_, closed.slot_isSome hcontent hq⟩
  exact homed.slot_mem (hv (preorder_subset_of_mem hmem child.self_mem_preorder)) hcontent hq

/-- The slots in a content are those of recorded relations below a variable. -/
def SlotsBelow (a : Assignment) (child : Variable) (content : Content) : Prop :=
  ∀ q, .slot q ∈ content.atoms → q ∈ child.ids ∧ (a.cell? q).isSome

theorem slotsBelow_passed {child : Variable} {delimiter : Option BitString} {isFirst : Bool} {content before : Content}
    {start : Nat} (h : SlotsBelow a child content)
    (hp : reading.passDelimiter? delimiter isFirst offset content = some (start, before)) :
    SlotsBelow a child before := by
  unfold passDelimiter? at hp
  split at hp
  next d _ =>
    split at hp
    · cases hp
      intro q hq
      rw [Content.atoms_pushBits, List.mem_append] at hq
      exact h q (hq.resolve_right Atom.slot_notMem_ofBits)
    · cases hp
  next =>
    cases hp
    exact h

theorem slotsBelow_append {child : Variable} {content own : Content} (h : SlotsBelow a child content)
    (keeps : ∀ q, (a.cell? q).isSome → (b.cell? q).isSome) (hm : child ∈ all) (homed : b.Homed all)
    (closed : b.Closed all) (ho : b.content? child.id = some own) :
    SlotsBelow b child (content.append (b.freeze own)) := by
  intro q hq
  rw [Content.atoms_append, atoms_freeze, List.mem_append] at hq
  rcases hq with hq | hq
  · exact (h q hq).imp_right (keeps q)
  · have hq := slot_mem_of_settled hq
    exact ⟨homed.slot_mem hm ho hq, closed.slot_isSome ho hq⟩

theorem mem_searchWith_some {v : Variable} :
    b ∈ reading.searchWith some v a offset ↔ b ∈ reading.recordsWith some v a offset := by
  rw [searchWith, List.filterMap_some]

theorem mem_recordsOfAny {check : Assignment → Option Assignment} {id : VarId} {children : List Variable} :
    b ∈ reading.recordsOfAny check id children a offset ↔
      ∃ child ∈ children, ∃ c ∈ reading.searchWith check child a offset, c.composed? id [child] = some b := by
  induction children with
  | nil => simp [recordsOfAny]
  | cons child rest ih =>
    rw [recordsOfAny, List.mem_append, ih, List.mem_filterMap, List.exists_mem_cons_iff]
    rfl

/-- The search through a list goes on with the steps of each variable in it. -/
theorem searchAll_steps {children : List Variable}
    (one : ∀ c ∈ children, ∀ x offset y, ReadSteps vars a x → y ∈ reading.searchWith some c x offset →
      ReadSteps vars a y) {x : Assignment} (hx : ReadSteps vars a x) {p : Assignment × Nat}
    (hp : p ∈ reading.searchAll some children x offset) : ReadSteps vars a p.1 := by
  induction children generalizing x offset with
  | nil =>
    rw [searchAll, List.mem_singleton] at hp
    rw [hp]
    exact hx
  | cons c rest ih =>
    rw [searchAll, List.mem_flatMap] at hp
    obtain ⟨b, hb, hp⟩ := hp
    exact ih (fun c hc => one c (List.mem_cons_of_mem _ hc)) (one c List.mem_cons_self x offset b hx hb) hp

section Unique

variable (unique : ∀ {v w}, v ∈ all → w ∈ all → v.id = w.id → v = w)

include unique

/-- Instances go on with the steps of each of them, and their slots are those of relations below the child. -/
theorem instances_steps {one : Assignment → Nat → Choices Assignment} {child : Variable} (hm : child ∈ all)
    (hv : vars ⊆ all) (homed : a.Homed all) (closed : a.Closed all)
    (each : ∀ x offset y, ReadSteps vars a x → y ∈ (one x offset).toList → ReadSteps vars x y)
    {delimiter : Option BitString} {k : Nat} {isFirst : Bool} {content : Content} {x : Assignment}
    (hx : ReadSteps vars a x) (hs : SlotsBelow x child content) {p : Assignment × Content}
    (hp : p ∈ (reading.instances one child delimiter k isFirst x offset content).toList) :
    ReadSteps vars a p.1 ∧ SlotsBelow p.1 child p.2 := by
  induction k generalizing isFirst x offset content with
  | zero =>
    rw [toList_instances_zero, List.mem_singleton] at hp
    rw [hp]
    exact ⟨hx, hs⟩
  | succ k ih =>
    obtain ⟨start, before, hpass, y, hy, -, own, hown, hp⟩ := mem_instances_succ.mp hp
    have hxy := each x start y hx hy
    have hay := hx.trans hxy
    refine ih hay (slotsBelow_append (slotsBelow_passed hs hpass) (fun q hq => ?_) hm (hay.homed unique hv homed)
      (hay.closed unique hv closed) hown) hp
    exact hxy.isSome_cell? unique hv (hx.closed unique hv closed) hq

/-- A variable is recorded after variables below it. -/
theorem records_steps (v : Variable) (hv : v.preorder ⊆ all) {a b : Assignment} {offset : Nat} (homed : a.Homed all)
    (closed : a.Closed all) (hb : b ∈ reading.recordsWith some v a offset) :
    ∃ c, ReadSteps (preorderAll v.children) a c ∧ ReadStep v c b := by
  -- a child goes on from where its siblings end
  have go {v c : Variable} (hc : c ∈ v.children) (mem : preorderAll v.children ⊆ all)
      (ih : ∀ {a b : Assignment} {offset : Nat}, a.Homed all → a.Closed all →
        b ∈ reading.recordsWith some c a offset → ∃ x, ReadSteps (preorderAll c.children) a x ∧ ReadStep c x b)
      {a : Assignment} (homed : a.Homed all) (closed : a.Closed all) {x y : Assignment} {offset : Nat}
      (hx : ReadSteps (preorderAll v.children) a x) (hy : y ∈ reading.searchWith some c x offset) :
      ReadSteps (preorderAll v.children) x y := by
    obtain ⟨z, hz, hs⟩ := ih (hx.homed unique mem homed) (hx.closed unique mem closed) (mem_searchWith_some.mp hy)
    exact (hz.mono (List.Subset.trans (children_subset_preorder c) (preorder_subset_of_mem hc))).step
      (preorder_subset_of_mem hc c.self_mem_preorder) hs
  induction v using Variable.induct generalizing a b offset with
  | data id name type scope => exact ⟨a, .refl _ a, leafRecords_step (by rwa [recordsWith] at hb)⟩
  | relation r => exact ⟨a, .refl _ a, relationRecords_step (by rwa [recordsWith] at hb)⟩
  | choice id name children ih =>
    have mem : preorderAll children ⊆ all := List.Subset.trans (children_subset_preorder (.choice id name children)) hv
    rw [recordsWith] at hb
    obtain ⟨child, hc, x, hx, hb⟩ := mem_recordsOfAny.mp hb
    have hax := go (v := .choice id name children) hc mem
      (fun homed closed hb => ih child hc (List.Subset.trans (preorder_subset_of_mem hc) mem) homed closed hb) homed
      closed (.refl _ a) hx
    exact ⟨x, hax, composed?_step (v := .choice id name children) rfl (List.cons_subset.mpr ⟨hc, List.nil_subset _⟩)
      (hax.homed unique mem homed) (hax.closed unique mem closed) mem hb⟩
  | sequence id name children ih =>
    have mem : preorderAll children ⊆ all := List.Subset.trans (children_subset_preorder (.sequence id name children)) hv
    rw [recordsWith, List.mem_filterMap] at hb
    obtain ⟨p, hp, hb⟩ := hb
    have hap := searchAll_steps (fun c hc x offset y hx hy => hx.trans (go (v := .sequence id name children) hc mem
      (fun homed closed hb => ih c hc (List.Subset.trans (preorder_subset_of_mem hc) mem) homed closed hb) homed closed hx
      hy)) (.refl _ a) hp
    exact ⟨p.1, hap, composed?_step (v := .sequence id name children) rfl (List.Subset.refl _)
      (hap.homed unique mem homed) (hap.closed unique mem closed) mem hb⟩
  | repetition id name child count delimiter ih =>
    have hc : child ∈ (Variable.repetition id name child count delimiter).children := List.mem_singleton_self _
    have mem : preorderAll (Variable.repetition id name child count delimiter).children ⊆ all :=
      List.Subset.trans (children_subset_preorder (.repetition id name child count delimiter)) hv
    rw [recordsWith, List.mem_flatMap] at hb
    obtain ⟨k, -, hb⟩ := hb
    obtain ⟨p, hp, rfl⟩ := List.mem_map.mp hb
    obtain ⟨hap, hs⟩ := instances_steps unique (mem (preorder_subset_of_mem hc child.self_mem_preorder)) mem homed closed
      (fun x offset y hx hy => by
        rw [Choices.toList_ofList] at hy
        exact go hc mem (fun homed closed hb => ih (List.Subset.trans (preorder_subset_of_mem hc) mem) homed closed hb)
          homed closed hx hy) (.refl _ a)
      (fun q hq => absurd hq List.not_mem_nil) hp
    exact ⟨p.1, hap, .record (v := .repetition id name child count delimiter) rfl (Or.inl rfl) fun q hq =>
      (hs q hq).imp_left fun hq => ids_subset_of_mem hc hq⟩

end Unique

end Steps

/-! ## Behind relations that wait already -/

section Behind

variable {reading : Reading} {all vars : List Variable} {front : List Relation}

theorem isPending_behind {a : Assignment} {id : VarId} (h : ∀ p ∈ front, p.id ≠ id) :
    (a.behind front).isPending id = a.isPending id := by
  have none : (front.any fun p => p.id == id) = false := by
    rw [List.any_eq_false]
    intro p hp
    rw [beq_iff_eq]
    exact h p hp
  rw [isPending, behind, List.any_append, none, Bool.false_or, isPending]

/-- Relations without a slot in a content play no part when it is frozen. -/
theorem freeze_behind {a : Assignment} {content : Content}
    (h : ∀ q, .slot q ∈ content.atoms → ∀ p ∈ front, p.id ≠ q) :
    (a.behind front).freeze content = a.freeze content := by
  have chunk (before : Content) {c : Chunk} (hc : c ∈ content.chunks) :
      (a.behind front).freezeChunk before c = a.freezeChunk before c := by
    cases c with
    | bits bits => rfl
    | slot q =>
      unfold freezeChunk
      dsimp only
      rw [isPending_behind (h q (List.mem_flatMap.mpr ⟨_, hc, List.mem_singleton_self _⟩))]
      rfl
  unfold freeze
  exact List.foldl_ext _ _ _ fun before c hc => chunk before hc

theorem composed?_behind {a : Assignment} {id : VarId} {children : List Variable}
    (h : ∀ c ∈ children, ∀ content, a.content? c.id = some content →
      (a.behind front).freeze content = a.freeze content) :
    (a.behind front).composed? id children = (a.composed? id children).map (behind · front) := by
  unfold composed?
  change ((children.mapM fun c => a.content? c.id) >>= _) = Option.map _ ((children.mapM fun c => a.content? c.id) >>= _)
  cases hc : children.mapM fun c => a.content? c.id with
  | none => rfl
  | some contents =>
    have same : contents.foldl (fun content c => content.append ((a.behind front).freeze c)) Content.empty =
        contents.foldl (fun content c => content.append (a.freeze c)) Content.empty := by
      refine List.foldl_ext _ _ _ fun content c hm => ?_
      obtain ⟨child, hchild, hcontent⟩ := exists_of_mem_mapM hc hm
      rw [h child hchild c hcontent]
    change some (Assignment.record _ _ _) = some (behind (Assignment.record _ _ _) _)
    rw [same]
    rfl

theorem leafRecords_behind (id : VarId) (type : DataType) (scope : Scope) (a : Assignment) (offset : Nat) :
    reading.leafRecords id type scope (a.behind front) offset =
      (reading.leafRecords id type scope a offset).map (behind · front) := by
  have replayed : (a.behind front).replayed? id type scope = a.replayed? id type scope := rfl
  unfold leafRecords
  rw [replayed]
  cases a.replayed? id type scope with
  | some value =>
    dsimp only
    split <;> rfl
  | none =>
    dsimp only
    split
    · rfl
    · rw [List.map_filterMap]
      refine List.filterMap_congr fun length _ => ?_
      split
      · unfold learnFresh
        split <;> rfl
      · rfl

theorem relationRecords_behind {r : Relation} (hr : ∀ p ∈ front, p.id ≠ r.id) (a : Assignment) (offset : Nat) :
    reading.relationRecords r (a.behind front) offset =
      (reading.relationRecords r a offset).map (behind · front) := by
  have evaluated : r.evaluate (a.behind front) = r.evaluate a := rfl
  have awaited (x : Assignment) : (x.behind front).awaitRelation r = (x.awaitRelation r).behind front := by
    unfold awaitRelation
    rw [isPending_behind hr]
    split
    · rfl
    · simp only [behind, List.append_assoc]
  unfold relationRecords
  rw [evaluated]
  cases r.evaluate a with
  | error e => rfl
  | ok outcome =>
    cases outcome with
    | ready expected =>
      dsimp only
      split <;> rfl
    | length n =>
      dsimp only
      split <;> rfl
    | waiting =>
      dsimp only
      rw [List.map_filterMap]
      refine List.filterMap_congr fun length _ => ?_
      split
      · exact congrArg some (awaited (a.setCell r.id (.known (reading.bitsAt offset length))))
      · rfl

section Search

variable {check : Assignment → Option Assignment} {P : Assignment → Prop} {a : Assignment} {offset : Nat}

section Children

variable {children : List Variable}
  (one : ∀ c ∈ children, ∀ x offset, P x → reading.searchWith check c (x.behind front) offset =
    (reading.searchWith some c x offset).map (behind · front))

include one

theorem searchAll_behind
    (keep : ∀ c ∈ children, ∀ x offset y, P x → y ∈ reading.searchWith some c x offset → P y) (ha : P a) :
    reading.searchAll check children (a.behind front) offset =
      (reading.searchAll some children a offset).map fun p => (p.1.behind front, p.2) := by
  induction children generalizing a offset with
  | nil => rw [searchAll, searchAll, List.map_singleton]
  | cons c rest ih =>
    have head := one c List.mem_cons_self a offset ha
    unfold searchWith at head
    rw [searchAll, searchAll, head, List.flatMap_map, List.map_flatMap]
    refine List.flatMap_congr fun b hb => ?_
    exact ih (fun c hc => one c (List.mem_cons_of_mem _ hc)) (fun c hc => keep c (List.mem_cons_of_mem _ hc))
      (keep c List.mem_cons_self a offset b ha hb)

theorem recordsOfAny_behind {id : VarId}
    (composed : ∀ c ∈ children, ∀ b ∈ reading.searchWith some c a offset,
      (b.behind front).composed? id [c] = (b.composed? id [c]).map (behind · front)) (ha : P a) :
    reading.recordsOfAny check id children (a.behind front) offset =
      (reading.recordsOfAny some id children a offset).map (behind · front) := by
  induction children with
  | nil => rw [recordsOfAny, recordsOfAny, List.map_nil]
  | cons c rest ih =>
    have head := one c List.mem_cons_self a offset ha
    unfold searchWith at head
    rw [recordsOfAny, recordsOfAny, List.map_append, head, List.filterMap_map, List.map_filterMap,
      ih (fun c hc => one c (List.mem_cons_of_mem _ hc)) fun c hc => composed c (List.mem_cons_of_mem _ hc)]
    congr 1
    exact List.filterMap_congr fun b hb => composed c List.mem_cons_self b hb

end Children

theorem instances_behind {one one' : Assignment → Nat → Choices Assignment} {child : Variable}
    (each : ∀ x offset, P x → (one' (x.behind front) offset).toList = (one x offset).toList.map (behind · front))
    (keep : ∀ x offset y, P x → y ∈ (one x offset).toList → P y)
    (frozen : ∀ x, P x → ∀ content, x.content? child.id = some content →
      (x.behind front).freeze content = x.freeze content)
    {delimiter : Option BitString} {k : Nat} {isFirst : Bool} {content : Content} (ha : P a) :
    (reading.instances one' child delimiter k isFirst (a.behind front) offset content).toList =
      (reading.instances one child delimiter k isFirst a offset content).toList.map fun p => (p.1.behind front, p.2) := by
  induction k generalizing isFirst a offset content with
  | zero => rw [toList_instances_zero, toList_instances_zero, List.map_singleton]
  | succ k ih =>
    rw [toList_instances_succ, toList_instances_succ]
    cases reading.passDelimiter? delimiter isFirst offset content with
    | none => rfl
    | some q =>
      dsimp only
      rw [each a q.1 ha, List.flatMap_map, List.map_flatMap]
      refine List.flatMap_congr fun b hb => ?_
      have hbi := keep a q.1 b ha hb
      by_cases hn : b.consumed child = 0
      · have none : (b.behind front).consumed child = 0 := hn
        rw [afterInstance, afterInstance, hn, none]
        rfl
      · cases hc : b.content? child.id with
        | none =>
          have none : (b.behind front).content? child.id = none := hc
          obtain ⟨n, hn⟩ := Nat.exists_eq_succ_of_ne_zero hn
          have some : (b.behind front).consumed child = n + 1 := hn
          rw [afterInstance, afterInstance, hc, none, hn, some]
          rfl
        | some own =>
          rw [toList_afterInstance (b := b) hn hc, toList_afterInstance (b := b.behind front) hn hc,
            frozen b hbi own hc]
          exact ih hbi

section Child

variable (unique : ∀ {v w}, v ∈ all → w ∈ all → v.id = w.id → v = w) {v c : Variable} (hc : c ∈ v.children)
  (mem : preorderAll v.children ⊆ all)

include unique hc mem

/-- A child is read alike behind relations that wait already, if its records are, and below its parent. -/
theorem searchWith_behind
    (each : ∀ {x : Assignment} {offset : Nat}, x.Homed all → x.Closed all →
      (∀ w ∈ preorderAll c.children, ∀ y z, ReadSteps (preorderAll c.children) x y → ReadStep w y z →
        check (z.behind front) = some (z.behind front)) →
      reading.recordsWith check c (x.behind front) offset = (reading.recordsWith some c x offset).map (behind · front))
    (homed : a.Homed all) (closed : a.Closed all)
    (passes : ∀ w ∈ preorderAll v.children, ∀ x y, ReadSteps (preorderAll v.children) a x → ReadStep w x y →
      check (y.behind front) = some (y.behind front)) (x : Assignment) (offset : Nat)
    (hx : ReadSteps (preorderAll v.children) a x) :
    reading.searchWith check c (x.behind front) offset =
      (reading.searchWith some c x offset).map (behind · front) ∧
    ∀ y ∈ reading.searchWith some c x offset, ReadSteps (preorderAll v.children) a y := by
  have below : preorderAll c.children ⊆ preorderAll v.children :=
    List.Subset.trans (children_subset_preorder c) (preorder_subset_of_mem hc)
  have own : c ∈ preorderAll v.children := preorder_subset_of_mem hc c.self_mem_preorder
  have last {y : Assignment} (hy : y ∈ reading.recordsWith some c x offset) :
      ∃ z, ReadSteps (preorderAll v.children) a z ∧ ReadStep c z y := by
    obtain ⟨z, hz, hs⟩ := records_steps unique c (fun w hw => mem (preorder_subset_of_mem hc hw))
      (hx.homed unique mem homed) (hx.closed unique mem closed) hy
    exact ⟨z, hx.trans (hz.mono below), hs⟩
  constructor
  · rw [searchWith, searchWith, List.filterMap_some, each (hx.homed unique mem homed) (hx.closed unique mem closed)
      fun w hw y z hy hs => passes w (below hw) y z (hx.trans (hy.mono below)) hs, List.filterMap_map]
    rw [← List.filterMap_eq_map]
    refine List.filterMap_congr fun y hy => ?_
    obtain ⟨z, hz, hs⟩ := last hy
    exact passes c own z y hz hs
  · intro y hy
    obtain ⟨z, hz, hs⟩ := last (mem_searchWith_some.mp hy)
    exact hz.step own hs

omit unique in
theorem freeze_child_behind (apart : ∀ p ∈ front, p.id ∉ v.ids) (homed : a.Homed all) (content : Content)
    (hcontent : a.content? c.id = some content) : (a.behind front).freeze content = a.freeze content := by
  refine freeze_behind fun q hq p hp he => apart p hp ?_
  rw [he, ids_eq]
  refine List.mem_cons_of_mem _ (ids_subset_of_mem hc ?_)
  exact homed.slot_mem (mem (preorder_subset_of_mem hc c.self_mem_preorder)) hcontent hq

omit unique mem in
theorem apart_child (apart : ∀ p ∈ front, p.id ∉ v.ids) : ∀ p ∈ front, p.id ∉ c.ids := by
  intro p hp hi
  refine apart p hp ?_
  rw [ids_eq]
  exact List.mem_cons_of_mem _ (ids_subset_of_mem hc hi)

end Child

/--
A variable is read alike behind relations that wait already, as long as these have no place below it and the check lets
every record below it pass.
-/
theorem recordsWith_behind (unique : ∀ {v w}, v ∈ all → w ∈ all → v.id = w.id → v = w) (v : Variable)
    (hv : v.preorder ⊆ all) (apart : ∀ p ∈ front, p.id ∉ v.ids) {a : Assignment} {offset : Nat} (homed : a.Homed all)
    (closed : a.Closed all)
    (passes : ∀ w ∈ preorderAll v.children, ∀ x y, ReadSteps (preorderAll v.children) a x → ReadStep w x y →
      check (y.behind front) = some (y.behind front)) :
    reading.recordsWith check v (a.behind front) offset =
      (reading.recordsWith some v a offset).map (behind · front) := by
  induction v using Variable.induct generalizing a offset with
  | data id name type scope => rw [recordsWith, recordsWith, leafRecords_behind]
  | relation r =>
    rw [recordsWith, recordsWith, relationRecords_behind]
    intro p hp he
    exact apart p hp (by rw [ids_relation, he]; exact List.mem_singleton_self _)
  | choice id name children ih =>
    have mem : preorderAll children ⊆ all := List.Subset.trans (children_subset_preorder (.choice id name children)) hv
    have one := fun c (hc : c ∈ children) => searchWith_behind (v := .choice id name children) unique hc mem
      (fun homed closed => ih c hc (List.Subset.trans (preorder_subset_of_mem hc) mem)
        (apart_child (v := .choice id name children) hc apart) homed closed) homed closed passes
    rw [recordsWith, recordsWith]
    refine recordsOfAny_behind (fun c hc x offset hx => (one c hc x offset hx).1) (fun c hc b hb => ?_) (.refl _ a)
    refine composed?_behind fun d hd content hcontent => ?_
    rw [List.mem_singleton.mp hd] at hcontent
    have hab := (one c hc a offset (.refl _ a)).2 b hb
    exact freeze_child_behind (v := .choice id name children) hc mem apart (hab.homed unique mem homed) content hcontent
  | sequence id name children ih =>
    have mem : preorderAll children ⊆ all := List.Subset.trans (children_subset_preorder (.sequence id name children)) hv
    have one := fun c (hc : c ∈ children) => searchWith_behind (v := .sequence id name children) unique hc mem
      (fun homed closed => ih c hc (List.Subset.trans (preorder_subset_of_mem hc) mem)
        (apart_child (v := .sequence id name children) hc apart) homed closed) homed closed passes
    have keep := fun c (hc : c ∈ children) x offset y hx hy => (one c hc x offset hx).2 y hy
    rw [recordsWith, recordsWith, searchAll_behind (fun c hc x offset hx => (one c hc x offset hx).1) keep (.refl _ a),
      List.filterMap_map, List.map_filterMap]
    refine List.filterMap_congr fun p hp => ?_
    have hap := searchAll_steps keep (.refl _ a) hp
    refine composed?_behind fun c hc content hcontent => ?_
    exact freeze_child_behind (v := .sequence id name children) hc mem apart (hap.homed unique mem homed) content hcontent
  | repetition id name child count delimiter ih =>
    have hc : child ∈ (Variable.repetition id name child count delimiter).children := List.mem_singleton_self _
    have mem : preorderAll (Variable.repetition id name child count delimiter).children ⊆ all :=
      List.Subset.trans (children_subset_preorder (.repetition id name child count delimiter)) hv
    have one := searchWith_behind unique hc mem (fun homed closed =>
      ih (List.Subset.trans (preorder_subset_of_mem hc) mem) (apart_child hc apart) homed closed) homed closed passes
    rw [recordsWith, recordsWith, List.map_flatMap]
    refine List.flatMap_congr fun k _ => ?_
    rw [instances_behind (P := ReadSteps _ a) (fun x offset hx => ?_) (fun x offset y hx hy => ?_)
      (fun x hx => freeze_child_behind hc mem apart (hx.homed unique mem homed)) (.refl _ a), List.map_map, List.map_map]
    · rfl
    · rw [Choices.toList_ofList, Choices.toList_ofList]
      exact (one x offset hx).1
    · rw [Choices.toList_ofList] at hy
      exact (one x offset hx).2 y hy

end Search

end Behind

end Reading

end WireGrammar
