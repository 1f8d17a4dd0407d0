import Mathlib.Data.List.Nodup
import WireGrammar.Proofs.Variable.Tree

/-!
# Identities by place

In a tree that is built from a root on, the identity of each variable is its place in the tree (`Variable.Placed`).
No two variables of such a tree have the same identity (`Placed.nodup`).
-/

namespace WireGrammar

namespace VarId

/-- The places at and below a place of the same tree. -/
def Above (i j : VarId) : Prop :=
  j.root = i.root ∧ i.branch <:+ j.branch

theorem Above.refl (i : VarId) : i.Above i :=
  ⟨rfl, List.suffix_refl _⟩

theorem Above.of_child {i j : VarId} {k : Nat} (h : (i.child k).Above j) : i.Above j :=
  ⟨h.1, (List.suffix_cons k i.branch).trans h.2⟩

/-- No place is below one of its children. -/
theorem not_child_above (i : VarId) (k : Nat) : ¬ (i.child k).Above i := by
  rintro ⟨-, h⟩
  have := h.length_le
  rw [child, List.length_cons] at this
  omega

/-- What is below two children of a place is below the same child. -/
theorem Above.child_unique {i j : VarId} {k l : Nat} (hk : (i.child k).Above j) (hl : (i.child l).Above j) : k = l := by
  have h := List.suffix_of_suffix_length_le hk.2 hl.2 (Nat.le_refl _)
  exact (List.cons.inj (h.eq_of_length rfl)).1

end VarId

namespace Variable

mutual

/-- The identities in a tree are the places of its variables. -/
def Placed : Variable → VarId → Prop
  | .data id _ _ _, i => id = i
  | .relation r, i => r.id = i
  | .choice id _ children, i => id = i ∧ PlacedAll children i 0
  | .sequence id _ children, i => id = i ∧ PlacedAll children i 0
  | .repetition id _ child _ _, i => id = i ∧ Placed child (i.child 0)

/-- The places of the children of a node, from the one with an index on. -/
def PlacedAll : List Variable → VarId → Nat → Prop
  | [], _, _ => True
  | c :: more, i, k => Placed c (i.child k) ∧ PlacedAll more i (k + 1)

end

variable {v : Variable} {i : VarId}

theorem Placed.id_eq (h : v.Placed i) : v.id = i := by
  cases v with
  | data id name type scope => exact h
  | relation r => exact h
  | choice id name children => exact h.1
  | sequence id name children => exact h.1
  | repetition id name child count delimiter => exact h.1

/-- The children of a node in places of which each is another one. -/
theorem placedAll_above {children : List Variable} {k : Nat}
    (one : ∀ c ∈ children, ∀ {i}, c.Placed i → ∀ j ∈ c.ids, i.Above j) (h : PlacedAll children i k) :
    ∀ j ∈ idsOf children, ∃ l, k ≤ l ∧ (i.child l).Above j := by
  induction children generalizing k with
  | nil => simp
  | cons c more ih =>
    intro j hj
    rcases List.mem_append.mp hj with hj | hj
    · exact ⟨k, Nat.le_refl k, one c List.mem_cons_self h.1 j hj⟩
    · obtain ⟨l, hl, ha⟩ := ih (fun c hc => one c (List.mem_cons_of_mem _ hc)) h.2 j hj
      exact ⟨l, Nat.le_of_succ_le hl, ha⟩

/-- All identities are at or below the place of the tree. -/
theorem Placed.above (h : v.Placed i) : ∀ j ∈ v.ids, i.Above j := by
  have node {children : List Variable} {i : VarId} (ih : ∀ c ∈ children, ∀ {i}, c.Placed i → ∀ j ∈ c.ids, i.Above j)
      (h : PlacedAll children i 0) : ∀ j ∈ i :: idsOf children, i.Above j := by
    refine List.forall_mem_cons.mpr ⟨.refl i, fun j hj => ?_⟩
    obtain ⟨l, -, ha⟩ := placedAll_above ih h j hj
    exact ha.of_child
  induction v using Variable.induct generalizing i with
  | data id name type scope =>
    cases h
    simpa using VarId.Above.refl _
  | relation r =>
    cases h
    simpa using VarId.Above.refl _
  | choice id name children ih =>
    obtain ⟨rfl, h⟩ := h
    rw [ids_choice]
    exact node ih h
  | sequence id name children ih =>
    obtain ⟨rfl, h⟩ := h
    rw [ids_sequence]
    exact node ih h
  | repetition id name child count delimiter ih =>
    obtain ⟨rfl, h⟩ := h
    rw [ids_repetition]
    exact List.forall_mem_cons.mpr ⟨.refl id, fun j hj => (ih h j hj).of_child⟩

theorem placedAll_nodup {children : List Variable} {k : Nat}
    (one : ∀ c ∈ children, ∀ {i}, c.Placed i → c.ids.Nodup) (h : PlacedAll children i k) : (idsOf children).Nodup := by
  induction children generalizing k with
  | nil => exact List.nodup_nil
  | cons c more ih =>
    refine List.nodup_append.mpr
      ⟨one c List.mem_cons_self h.1, ih (fun c hc => one c (List.mem_cons_of_mem _ hc)) h.2, fun j hj l hl he => ?_⟩
    obtain ⟨m, hm, ha⟩ := placedAll_above (fun _ _ _ hp => hp.above) h.2 l hl
    have := (h.1.above j hj).child_unique (he ▸ ha)
    omega

/-- No identity occurs twice. -/
theorem Placed.nodup (h : v.Placed i) : v.ids.Nodup := by
  have node {children : List Variable} {i : VarId} (ih : ∀ c ∈ children, ∀ {i}, c.Placed i → c.ids.Nodup)
      (h : PlacedAll children i 0) : (i :: idsOf children).Nodup := by
    refine List.nodup_cons.mpr ⟨fun hi => ?_, placedAll_nodup ih h⟩
    obtain ⟨l, -, ha⟩ := placedAll_above (fun _ _ _ hp => hp.above) h i hi
    exact i.not_child_above l ha
  induction v using Variable.induct generalizing i with
  | data id name type scope =>
    rw [ids_data]
    exact List.nodup_singleton _
  | relation r =>
    rw [ids_relation]
    exact List.nodup_singleton _
  | choice id name children ih =>
    obtain ⟨rfl, h⟩ := h
    rw [ids_choice]
    exact node ih h
  | sequence id name children ih =>
    obtain ⟨rfl, h⟩ := h
    rw [ids_sequence]
    exact node ih h
  | repetition id name child count delimiter ih =>
    obtain ⟨rfl, h⟩ := h
    rw [ids_repetition]
    exact List.nodup_cons.mpr ⟨fun hi => id.not_child_above 0 (h.above id hi), ih h⟩

/-- Below the place of a tree there are only places inside of it, and none of a root. -/
theorem Placed.branch_ne_nil (h : v.Placed i) {j : VarId} (hj : j ∈ v.ids) (hne : j ≠ i) : j.branch ≠ [] := by
  obtain ⟨hr, hb⟩ := h.above j hj
  intro hn
  rw [hn, List.suffix_nil] at hb
  obtain ⟨root, branch⟩ := j
  obtain ⟨root', branch'⟩ := i
  simp_all

end Variable

end WireGrammar
