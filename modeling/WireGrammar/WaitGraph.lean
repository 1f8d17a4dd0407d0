import WireGrammar.Variable.Basic

/-!
# Who waits for whom

A graph whose nodes are relations, each with those it waits for, and the search for a node that waits for itself.

* `WaitGraph.explore`: follows the graph in depth from nodes one after the other. It marks a node when it comes to it
  and again when it is done with all that the node waits for, and all nodes it starts from share the marks. A node that
  it meets a second time before it is done with it waits for itself.
* `WaitGraph.unmarked`: the number of nodes that the search has not come to, which falls wherever it goes deeper.
-/

namespace WireGrammar

/-- The nodes of a graph, each with those it waits for. -/
abbrev WaitGraph : Type :=
  List (VarId × List VarId)

namespace WaitGraph

/-- How far a search has come with a node. -/
inductive Progress where
  | started
  /-- Done with the node and all that it waits for. -/
  | finished
  deriving DecidableEq

/-- The progress of a search, the newest mark of a node first. -/
abbrev Marks : Type :=
  List (VarId × Progress)

variable (graph : WaitGraph)

def nodes : List VarId :=
  graph.map (·.1)

/-- Those that a node waits for. -/
def next (id : VarId) : List VarId :=
  (graph.lookup id).getD []

/-- How many nodes a search has not come to. -/
def unmarked (marks : Marks) : Nat :=
  graph.countP fun node => (marks.lookup node.1).isNone

/-- More than any node waits for. -/
def breadth : Nat :=
  (graph.flatMap (·.2)).length + 1

theorem mem_of_lookup {graph : WaitGraph} {id : VarId} {waits : List VarId} (h : graph.lookup id = some waits) :
    (id, waits) ∈ graph := by
  obtain ⟨before, after, rfl, -⟩ := List.lookup_eq_some_iff.mp h
  simp

theorem length_next_lt (id : VarId) : (graph.next id).length < graph.breadth := by
  unfold next breadth
  cases h : graph.lookup id with
  | none => simp
  | some waits =>
    obtain ⟨before, after, rfl⟩ := List.append_of_mem (mem_of_lookup h)
    simp
    omega

/-- A mark more leaves no more nodes without one. -/
theorem unmarked_cons_le (marks : Marks) (id : VarId) (progress : Progress) :
    graph.unmarked ((id, progress) :: marks) ≤ graph.unmarked marks := by
  apply List.countP_mono_left
  intro node _ h
  rw [List.lookup_cons] at h
  split at h
  · cases h
  · exact h

/-- The first mark of a node that waits for others leaves fewer nodes without one. -/
theorem unmarked_cons_lt {marks : Marks} {id : VarId} (progress : Progress) (hm : marks.lookup id = none)
    (hn : graph.next id ≠ []) : graph.unmarked ((id, progress) :: marks) < graph.unmarked marks := by
  cases h : graph.lookup id with
  | none => simp [next, h] at hn
  | some waits =>
    obtain ⟨before, after, hg⟩ := List.append_of_mem (mem_of_lookup h)
    have first := unmarked_cons_le before marks id progress
    have last := unmarked_cons_le after marks id progress
    unfold unmarked at first last ⊢
    simp only [hg, List.countP_append, List.countP_cons, List.lookup_cons, beq_self_eq_true, hm] at first last ⊢
    simp
    omega

/-- A search that comes back from a node has marked it and perhaps others. -/
theorem unmarked_finished_le {marks inner : Marks} {id : VarId}
    (h : graph.unmarked inner ≤ graph.unmarked ((id, .started) :: marks)) :
    graph.unmarked ((id, .finished) :: inner) ≤ graph.unmarked marks :=
  calc _ ≤ graph.unmarked inner := graph.unmarked_cons_le inner id .finished
    _ ≤ graph.unmarked ((id, .started) :: marks) := h
    _ ≤ _ := graph.unmarked_cons_le marks id .started

/-- A search that goes deeper has less to do. -/
theorem explore_deeper {marks : Marks} {id : VarId} (hm : marks.lookup id = none) (rest : List VarId) :
    graph.unmarked ((id, .started) :: marks) * graph.breadth + (graph.next id).length <
      graph.unmarked marks * graph.breadth + (id :: rest).length := by
  have most := graph.unmarked_cons_le marks id .started
  by_cases hn : graph.next id = []
  · have := Nat.mul_le_mul_right graph.breadth most
    simp [hn]
    omega
  · have less := graph.unmarked_cons_lt .started hm hn
    have := graph.length_next_lt id
    calc _ < graph.unmarked ((id, .started) :: marks) * graph.breadth + graph.breadth := by omega
      _ = (graph.unmarked ((id, .started) :: marks) + 1) * graph.breadth := (Nat.succ_mul _ _).symm
      _ ≤ graph.unmarked marks * graph.breadth := Nat.mul_le_mul_right _ less
      _ ≤ _ := Nat.le_add_right _ _

/--
Searches from nodes one after the other: fails with the first that is met again before the search is done with it,
otherwise marks all nodes that it comes to.
-/
def explore (marks : Marks) : List VarId → Except VarId { m : Marks // graph.unmarked m ≤ graph.unmarked marks }
  | [] => .ok ⟨marks, Nat.le_refl _⟩
  | id :: rest =>
    match _ : marks.lookup id with
    | some .started => .error id
    | some .finished => explore marks rest
    | none => do
      let ⟨inner, hi⟩ ← explore ((id, .started) :: marks) (graph.next id)
      let ⟨outer, ho⟩ ← explore ((id, .finished) :: inner) rest
      return ⟨outer, Nat.le_trans ho (graph.unmarked_finished_le hi)⟩
  termination_by ids => graph.unmarked marks * graph.breadth + ids.length
  decreasing_by
    · simp
    · exact graph.explore_deeper ‹_› rest
    · have := Nat.mul_le_mul_right graph.breadth (graph.unmarked_finished_le hi)
      simp
      omega

/-- The marks after a search, or the node that it fails with. -/
def search (marks : Marks) (ids : List VarId) : Except VarId Marks :=
  Subtype.val <$> graph.explore marks ids

@[simp] theorem search_nil (marks : Marks) : graph.search marks [] = .ok marks := by
  rw [search, explore]
  rfl

theorem search_cons (marks : Marks) (id : VarId) (rest : List VarId) :
    graph.search marks (id :: rest) =
      match marks.lookup id with
      | some .started => .error id
      | some .finished => graph.search marks rest
      | none => graph.search ((id, .started) :: marks) (graph.next id) >>= fun inner =>
          graph.search ((id, .finished) :: inner) rest := by
  rw [search, explore]
  split
  next h => simp only [h]; rfl
  next h => simp only [h]; rfl
  next h =>
    simp only [h, search]
    cases graph.explore ((id, .started) :: marks) (graph.next id) with
    | error e => rfl
    | ok inner =>
      simp only [bind, Except.bind, Functor.map, Except.map]
      cases graph.explore ((id, .finished) :: inner.val) rest <;> rfl

/-- A node that waits for itself, searched for from the given nodes in order. -/
def cycle? (ids : List VarId) : Option VarId :=
  match graph.search [] ids with
  | .error id => some id
  | .ok _ => none

end WaitGraph

end WireGrammar
