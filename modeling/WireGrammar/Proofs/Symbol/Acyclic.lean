import Mathlib.Data.List.Nodup
import Mathlib.Logic.Relation
import Mathlib.Tactic.ByContra
import WireGrammar.Proofs.Variable.Tree
import WireGrammar.Symbol

/-!
# Relations that wait for themselves

The search through a graph fails exactly if a node waits for itself, directly or through others, whatever nodes it
starts from and in whatever order, as long as it comes to all of them (`WaitGraph.isSome_cycle?_iff`). The nodes marked
as started are those on the way from the start to where the search is, and from a finished node every way ends
(`WaitGraph.Explored`).

* `Symbol.ReadsBitsOf`: a relation that needs bits refers to a variable in which another one lies.
* `relation_cycles_found`: the check of a symbol finds out whether this leads from some relation back to it.
-/

namespace WireGrammar

/-- From where all ways end, none leads back. -/
theorem not_transGen_of_acc {α : Type} {r : α → α → Prop} {a : α} (h : Acc (fun b a => r a b) a) :
    ¬ Relation.TransGen r a a := by
  have acc : Acc (Relation.TransGen fun b a => r a b) a := h.transGen
  clear h
  induction acc with
  | intro a _ ih => exact fun cycle => ih a (Relation.transGen_swap.mpr cycle) cycle

namespace WaitGraph

variable {graph : WaitGraph} {marks m : Marks} {ids : List VarId} {id other : VarId}

/-- A node waits for another one. -/
def WaitsFor (graph : WaitGraph) (id other : VarId) : Prop :=
  other ∈ graph.next id

/-- A node from which every way ends. -/
def Grounded (graph : WaitGraph) (id : VarId) : Prop :=
  Acc (fun other id => graph.WaitsFor id other) id

/-- A way that ends does not come back to where it began. -/
theorem Grounded.not_transGen (h : graph.Grounded id) : ¬ Relation.TransGen graph.WaitsFor id id :=
  not_transGen_of_acc h

/-! ## What a search does -/

/-- What a search that does not fail makes of the marks. -/
structure Explored (graph : WaitGraph) (marks : Marks) (ids : List VarId) (m : Marks) : Prop where
  finished : ∀ id ∈ ids, m.lookup id = some .finished
  keeps : ∀ id, marks.lookup id = some .finished → m.lookup id = some .finished
  /-- The nodes on the way to where the search is are the same as before. -/
  started : ∀ id, m.lookup id = some .started → marks.lookup id = some .started
  grounded : (∀ id, marks.lookup id = some .finished → graph.Grounded id) →
    ∀ id, m.lookup id = some .finished → graph.Grounded id

theorem unmarked_le_of_search (h : graph.search marks ids = .ok m) : graph.unmarked m ≤ graph.unmarked marks := by
  unfold search at h
  cases he : graph.explore marks ids with
  | error e => rw [he] at h; cases h
  | ok found =>
    rw [he] at h
    cases h
    exact found.2

/-- A search that comes to a new node goes through those that it waits for, and then goes on. -/
theorem search_cons_of_unmarked (hm : marks.lookup id = none) :
    graph.search marks (id :: ids) = graph.search ((id, .started) :: marks) (graph.next id) >>= fun inner =>
      graph.search ((id, .finished) :: inner) ids := by
  rw [search_cons, hm]

/-- The search is done with a node when it is done with all that the node waits for. -/
theorem Explored.finish {inner : Marks} (hm : marks.lookup id = none)
    (hi : Explored graph ((id, .started) :: marks) (graph.next id) inner)
    (ho : Explored graph ((id, .finished) :: inner) ids m) : Explored graph marks (id :: ids) m where
  finished := by
    intro other hother
    rcases List.mem_cons.mp hother with rfl | hother
    · exact ho.keeps _ List.lookup_cons_self
    · exact ho.finished other hother
  keeps := by
    intro other hf
    have ne : (other == id) = false := beq_eq_false_iff_ne.mpr fun he => by simp [he, hm] at hf
    apply ho.keeps
    rw [List.lookup_cons, ne]
    apply hi.keeps
    rwa [List.lookup_cons, ne]
  started := by
    intro other hs
    have hs := ho.started other hs
    rw [List.lookup_cons] at hs
    split at hs
    · cases hs
    next ne =>
      have hs := hi.started other hs
      rwa [List.lookup_cons, ne] at hs
  grounded := by
    intro ground
    have within := hi.grounded fun other hf => by
      rw [List.lookup_cons] at hf
      split at hf
      · cases hf
      · exact ground other hf
    refine ho.grounded fun other hf => ?_
    rw [List.lookup_cons] at hf
    split at hf
    next he =>
      obtain rfl := beq_iff_eq.mp he
      exact Acc.intro other fun next hn => within next (hi.finished next hn)
    next => exact within other hf

theorem explored_of_search (h : graph.search marks ids = .ok m) : Explored graph marks ids m := by
  induction marks, ids using explore.induct graph generalizing m with
  | case1 marks =>
    rw [search_nil] at h
    cases h
    exact ⟨nofun, fun _ hf => hf, fun _ hs => hs, fun ground => ground⟩
  | case2 marks id rest hm =>
    rw [search_cons, hm] at h
    cases h
  | case3 marks id rest hm ih =>
    rw [search_cons, hm] at h
    have found := ih h
    refine ⟨?_, found.keeps, found.started, found.grounded⟩
    intro other hother
    rcases List.mem_cons.mp hother with rfl | hother
    · exact found.keeps _ hm
    · exact found.finished other hother
  | case4 marks id rest hm ih₁ ih₂ =>
    rw [search_cons_of_unmarked hm] at h
    cases hs : graph.search ((id, .started) :: marks) (graph.next id) with
    | error e => rw [hs] at h; cases h
    | ok inner =>
      rw [hs] at h
      exact (ih₁ hs).finish hm (ih₂ inner (unmarked_le_of_search hs) h)

/-- The node that a search fails with waits for itself, if those on the way lead to the nodes to be searched. -/
theorem cycle_of_search (h : graph.search marks ids = .error id)
    (way : ∀ other, marks.lookup other = some .started → ∀ id ∈ ids, Relation.TransGen graph.WaitsFor other id) :
    Relation.TransGen graph.WaitsFor id id := by
  induction marks, ids using explore.induct graph with
  | case1 marks =>
    rw [search_nil] at h
    cases h
  | case2 marks node rest hm =>
    rw [search_cons, hm] at h
    cases h
    exact way id hm id List.mem_cons_self
  | case3 marks node rest hm ih =>
    rw [search_cons, hm] at h
    exact ih h fun other hs id hid => way other hs id (List.mem_cons_of_mem _ hid)
  | case4 marks node rest hm ih₁ ih₂ =>
    rw [search_cons_of_unmarked hm] at h
    cases hs : graph.search ((node, .started) :: marks) (graph.next node) with
    | error e =>
      rw [hs] at h
      cases h
      refine ih₁ hs fun other ho next hn => ?_
      rw [List.lookup_cons] at ho
      split at ho
      next he =>
        obtain rfl := beq_iff_eq.mp he
        exact .single hn
      next => exact (way other ho node List.mem_cons_self).tail hn
    | ok inner =>
      rw [hs] at h
      refine ih₂ inner (unmarked_le_of_search hs) h fun other ho next hn => ?_
      rw [List.lookup_cons] at ho
      split at ho
      · cases ho
      next ne =>
        have hs := (explored_of_search hs).started other ho
        rw [List.lookup_cons, ne] at hs
        exact way other hs next (List.mem_cons_of_mem _ hn)

/-! ## Cycles -/

theorem cycle?_eq_some (h : graph.cycle? ids = some id) : Relation.TransGen graph.WaitsFor id id := by
  unfold cycle? at h
  split at h
  next hs =>
    cases h
    exact cycle_of_search hs nofun
  next => cases h

/-- Without a cycle every way from the nodes that the search started from ends. -/
theorem grounded_of_cycle? (h : graph.cycle? ids = none) (hid : id ∈ ids) : graph.Grounded id := by
  unfold cycle? at h
  split at h
  next => cases h
  next m hs =>
    have found := explored_of_search hs
    exact found.grounded nofun id (found.finished id hid)

/-- A node that waits for others is one of the graph. -/
theorem mem_nodes_of_waitsFor (h : graph.WaitsFor id other) : id ∈ graph.nodes := by
  unfold WaitsFor next at h
  cases hl : graph.lookup id with
  | none => rw [hl] at h; cases h
  | some waits => exact List.mem_map_of_mem (mem_of_lookup hl)

/-- Started from all nodes in any order, a search finds a cycle exactly if there is one. -/
theorem isSome_cycle?_iff (all : graph.nodes ⊆ ids) :
    (graph.cycle? ids).isSome ↔ ∃ id, Relation.TransGen graph.WaitsFor id id := by
  constructor
  · intro h
    obtain ⟨id, hc⟩ := Option.isSome_iff_exists.mp h
    exact ⟨id, cycle?_eq_some hc⟩
  · rintro ⟨id, cycle⟩
    by_contra hn
    obtain ⟨next, first, -⟩ := Relation.TransGen.head'_iff.mp cycle
    have hid := all (mem_nodes_of_waitsFor first)
    exact (grounded_of_cycle? (Option.not_isSome_iff_eq_none.mp hn) hid).not_transGen cycle

end WaitGraph

namespace Symbol

open Variable

variable {s : Symbol} {r q : Relation} {id other : VarId}

/--
A relation of the symbol reads the bits of another one: both need bits, and the other one lies in a variable of the
symbol that the first refers to.
-/
def ReadsBitsOf (s : Symbol) (r q : Relation) : Prop :=
  .relation r ∈ s.allVariables ∧ r.rule.readsLengthsOnly = false ∧ q.rule.readsLengthsOnly = false ∧ q.id ≠ r.id ∧
    ∃ v ∈ s.allVariables, v.id ∈ r.targets ∧ .relation q ∈ v.preorder

theorem ReadsBitsOf.mem (h : s.ReadsBitsOf r q) : .relation q ∈ s.allVariables := by
  obtain ⟨-, -, -, -, v, hv, -, hq⟩ := h
  obtain ⟨f, hf, hv⟩ := List.mem_flatMap.mp hv
  exact List.mem_flatMap.mpr ⟨f, hf, preorder_subset hv hq⟩

/-! ## The graph of a symbol -/

theorem bitRelation?_eq_some {v : Variable} :
    bitRelation? v = some r ↔ v = .relation r ∧ r.rule.readsLengthsOnly = false := by
  unfold bitRelation?
  cases v with
  | relation q =>
    simp only [relation?, Option.filter_some, Option.ite_none_right_eq_some, Option.some.injEq, relation.injEq,
      Bool.not_eq_true']
    constructor
    · rintro ⟨bits, rfl⟩
      exact ⟨rfl, bits⟩
    · rintro ⟨rfl, bits⟩
      exact ⟨bits, rfl⟩
  | data | choice | sequence | repetition => simp [relation?]

theorem mem_bitRelations {vars : List Variable} :
    r ∈ vars.filterMap bitRelation? ↔ .relation r ∈ vars ∧ r.rule.readsLengthsOnly = false := by
  simp [List.mem_filterMap, bitRelation?_eq_some]

theorem mem_nodes : id ∈ s.waits.nodes ↔
    ∃ r, .relation r ∈ s.allVariables ∧ r.rule.readsLengthsOnly = false ∧ r.id = id := by
  simp only [WaitGraph.nodes, waits, List.map_map, List.mem_map, mem_bitRelations, Function.comp_apply, and_assoc]

theorem mem_waitsOf : other ∈ s.waitsOf r ↔
    ∃ t ∈ r.targets, ∃ v, s.find? t = some v ∧
      ∃ q, .relation q ∈ v.preorder ∧ q.rule.readsLengthsOnly = false ∧ q.id ≠ r.id ∧ q.id = other := by
  simp only [waitsOf, List.mem_flatMap, List.mem_filterMap, bitRelation?_eq_some, Option.ite_none_left_eq_some,
    Option.some.injEq]
  constructor
  · rintro ⟨v, ⟨t, ht, hv⟩, q, ⟨_, hq, rfl, bits⟩, ne, rfl⟩
    exact ⟨t, ht, v, hv, q, hq, bits, ne, rfl⟩
  · rintro ⟨t, ht, v, hv, q, hq, bits, ne, rfl⟩
    exact ⟨v, ⟨t, ht, hv⟩, q, ⟨_, hq, rfl, bits⟩, ne, rfl⟩

theorem mem_of_find? {v : Variable} (h : s.find? id = some v) : v ∈ s.allVariables ∧ v.id = id :=
  ⟨List.mem_of_find?_eq_some h, beq_iff_eq.mp (List.find?_some h :)⟩

section Distinct

variable (distinct : s.variableIds.Nodup)

include distinct

theorem eq_of_id {v w : Variable} (hv : v ∈ s.allVariables) (hw : w ∈ s.allVariables) (he : v.id = w.id) : v = w :=
  List.inj_on_of_nodup_map distinct hv hw he

theorem relation_eq_of_id (hr : .relation r ∈ s.allVariables) (hq : .relation q ∈ s.allVariables) (he : r.id = q.id) :
    r = q :=
  relation.inj (eq_of_id distinct hr hq he)

theorem find?_eq_some {v : Variable} (hv : v ∈ s.allVariables) : s.find? v.id = some v := by
  cases h : s.find? v.id with
  | none => exact absurd (beq_self_eq_true v.id) (List.find?_eq_none.mp h v hv)
  | some w =>
    obtain ⟨hw, he⟩ := mem_of_find? h
    rw [eq_of_id distinct hw hv he]

/-- The graph holds for each relation what it waits for. -/
theorem next_eq (hr : .relation r ∈ s.allVariables) (bits : r.rule.readsLengthsOnly = false) :
    s.waits.next r.id = s.waitsOf r := by
  have node : (r.id, s.waitsOf r) ∈ s.waits := List.mem_map_of_mem (mem_bitRelations.mpr ⟨hr, bits⟩)
  unfold WaitGraph.next
  cases h : s.waits.lookup r.id with
  | none => exact absurd (beq_self_eq_true r.id) (by simpa using List.lookup_eq_none_iff.mp h _ node)
  | some waits =>
    obtain ⟨q, hq, he⟩ := List.mem_map.mp (WaitGraph.mem_of_lookup h)
    obtain ⟨hid, rfl⟩ := Prod.mk.inj he
    rw [relation_eq_of_id distinct (mem_bitRelations.mp hq).1 hr hid]
    rfl

theorem waitsFor_iff : s.waits.WaitsFor id other ↔ ∃ r q, s.ReadsBitsOf r q ∧ r.id = id ∧ q.id = other := by
  constructor
  · intro h
    obtain ⟨r, hr, bits, rfl⟩ := mem_nodes.mp (WaitGraph.mem_nodes_of_waitsFor h)
    unfold WaitGraph.WaitsFor at h
    rw [next_eq distinct hr bits] at h
    obtain ⟨t, ht, v, hv, q, hq, bits', ne, rfl⟩ := mem_waitsOf.mp h
    obtain ⟨mem, rfl⟩ := mem_of_find? hv
    exact ⟨r, q, ⟨hr, bits, bits', ne, v, mem, ht, hq⟩, rfl, rfl⟩
  · rintro ⟨r, q, ⟨hr, bits, bits', ne, v, hv, ht, hq⟩, rfl, rfl⟩
    unfold WaitGraph.WaitsFor
    rw [next_eq distinct hr bits]
    exact mem_waitsOf.mpr ⟨v.id, ht, v, find?_eq_some distinct hv, q, hq, bits', ne, rfl⟩

/-- A way through the graph is one from relation to relation. -/
theorem exists_of_transGen (h : Relation.TransGen s.waits.WaitsFor id other) :
    ∃ r q, Relation.TransGen s.ReadsBitsOf r q ∧ .relation q ∈ s.allVariables ∧ r.id = id ∧ q.id = other := by
  induction h with
  | single h =>
    obtain ⟨r, q, reads, hr, hq⟩ := (waitsFor_iff distinct).mp h
    exact ⟨r, q, .single reads, reads.mem, hr, hq⟩
  | tail _ h ih =>
    obtain ⟨r, p, way, hp, hr, hpid⟩ := ih
    obtain ⟨p', q, reads, hp', hq⟩ := (waitsFor_iff distinct).mp h
    obtain rfl := relation_eq_of_id distinct hp reads.1 (hpid.trans hp'.symm)
    exact ⟨r, q, way.tail reads, reads.mem, hr, hq⟩

/-- A relation that reads its own bits through others is a cycle of the graph. -/
theorem transGen_iff : Relation.TransGen s.waits.WaitsFor id id ↔
    ∃ r, Relation.TransGen s.ReadsBitsOf r r ∧ r.id = id := by
  constructor
  · intro h
    obtain ⟨r, q, way, hq, rfl, hid⟩ := exists_of_transGen distinct h
    obtain ⟨p, first, -⟩ := Relation.TransGen.head'_iff.mp way
    obtain rfl := relation_eq_of_id distinct hq first.1 hid
    exact ⟨q, way, rfl⟩
  · rintro ⟨r, way, rfl⟩
    exact way.lift Relation.id fun p q reads => (waitsFor_iff distinct).mpr ⟨p, q, reads, rfl, rfl⟩

/-- If no relation waits for itself, then from every relation that needs bits each way to further ones ends. -/
theorem acc_of_isAcyclic (acyclic : s.isAcyclic = true) (hr : .relation r ∈ s.allVariables)
    (bits : r.rule.readsLengthsOnly = false) : Acc (fun q r => s.ReadsBitsOf r q) r := by
  have ground : s.waits.Grounded r.id :=
    WaitGraph.grounded_of_cycle? (Option.isNone_iff_eq_none.mp acyclic) (mem_nodes.mpr ⟨r, hr, bits, rfl⟩)
  refine Subrelation.accessible (fun {q r} reads => ?_) (InvImage.accessible Relation.id ground)
  exact (waitsFor_iff distinct).mpr ⟨r, q, reads, rfl, rfl⟩

end Distinct

end Symbol

/--
The check of a symbol in which no identity occurs twice finds a relation that waits for itself exactly if the relations
that need bits form a cycle. So does the search behind it from all these relations in any other order, and the node
that it names lies on a cycle.
-/
theorem relation_cycles_found {s : Symbol} (distinct : s.variableIds.Nodup) :
    (s.isAcyclic = false ↔ ∃ r, Relation.TransGen s.ReadsBitsOf r r) ∧
    ∀ order : List VarId, order.Perm s.waits.nodes →
      ((s.waits.cycle? order).isSome ↔ ∃ r, Relation.TransGen s.ReadsBitsOf r r) ∧
      ∀ id, s.waits.cycle? order = some id → ∃ r, Relation.TransGen s.ReadsBitsOf r r ∧ r.id = id := by
  have found (order : List VarId) (all : s.waits.nodes ⊆ order) :
      (s.waits.cycle? order).isSome ↔ ∃ r, Relation.TransGen s.ReadsBitsOf r r := by
    rw [WaitGraph.isSome_cycle?_iff all]
    constructor
    · rintro ⟨id, cycle⟩
      obtain ⟨r, way, -⟩ := (Symbol.transGen_iff distinct).mp cycle
      exact ⟨r, way⟩
    · rintro ⟨r, way⟩
      exact ⟨r.id, (Symbol.transGen_iff distinct).mpr ⟨r, way, rfl⟩⟩
  refine ⟨?_, fun order perm => ⟨found order perm.symm.subset, fun id named => ?_⟩⟩
  · rw [← found s.waits.nodes (List.Subset.refl _), Symbol.isAcyclic, Option.isNone_eq_false_iff]
  · exact (Symbol.transGen_iff distinct).mp (WaitGraph.cycle?_eq_some named)

/-- Two checksums of each other. -/
def crossedChecksums : Symbol where
  name := "S"
  fields := [
    ⟨"a", .relation ⟨.ofRoot 0, "a", .internetChecksum, [.ofRoot 1], .uint .two⟩⟩,
    ⟨"b", .relation ⟨.ofRoot 1, "b", .crc32, [.ofRoot 0], .uint .four⟩⟩]

/-- Each of two checksums of each other waits for itself; the search names the one that it starts from. -/
theorem relation_cycles_found_crossedChecksums : crossedChecksums.variableIds.Nodup ∧
    crossedChecksums.isAcyclic = false ∧
    [VarId.ofRoot 1, .ofRoot 0].Perm crossedChecksums.waits.nodes ∧
    crossedChecksums.waits.cycle? [.ofRoot 1, .ofRoot 0] = some (.ofRoot 1) ∧
    ∃ r, Relation.TransGen crossedChecksums.ReadsBitsOf r r ∧ r.id = .ofRoot 1 := by
  have distinct : crossedChecksums.variableIds.Nodup := by decide
  have order : [VarId.ofRoot 1, .ofRoot 0].Perm crossedChecksums.waits.nodes := by decide
  have named : crossedChecksums.waits.cycle? [.ofRoot 1, .ofRoot 0] = some (.ofRoot 1) := by decide +kernel
  obtain ⟨found, others⟩ := relation_cycles_found distinct
  obtain ⟨r, cycle, hid⟩ := (others _ order).2 _ named
  exact ⟨distinct, found.mpr ⟨r, cycle⟩, order, named, r, cycle, hid⟩

end WireGrammar
