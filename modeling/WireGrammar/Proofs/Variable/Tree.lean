import Mathlib.Data.List.Nodup
import WireGrammar.Variable.Basic

/-!
# Trees of variables

An induction over variables in which every child of a node has an induction hypothesis (`Variable.induct`), the
identities in a tree (`Variable.ids`), and what the bounds of a node are in terms of those of its children
(`choiceBounds_le`, `sequenceBounds_eq`).
-/

namespace WireGrammar.Variable

/-- Induction over variables, with a hypothesis for each child of a node. -/
@[elab_as_elim]
theorem induct {motive : Variable → Prop}
    (data : ∀ id name type scope, motive (.data id name type scope))
    (relation : ∀ r, motive (.relation r))
    (choice : ∀ id name children, (∀ c ∈ children, motive c) → motive (.choice id name children))
    (sequence : ∀ id name children, (∀ c ∈ children, motive c) → motive (.sequence id name children))
    (repetition : ∀ id name child count delimiter, motive child →
      motive (.repetition id name child count delimiter)) : ∀ v, motive v
  | .data id name type scope => data id name type scope
  | .relation r => relation r
  | .choice id name children =>
    choice id name children fun c _ => induct data relation choice sequence repetition c
  | .sequence id name children =>
    sequence id name children fun c _ => induct data relation choice sequence repetition c
  | .repetition id name child count delimiter =>
    repetition id name child count delimiter (induct data relation choice sequence repetition child)

/-- Whether a variable has children. -/
def isNode : Variable → Bool
  | choice .. | sequence .. | repetition .. => true
  | data .. | relation _ => false

theorem relation?_of_isNode {v : Variable} (h : v.isNode = true) : v.relation? = none := by
  cases v with
  | relation r => cases h
  | data | choice | sequence | repetition => rfl

theorem relation?_eq_some {v : Variable} {r : Relation} (h : v.relation? = some r) : v = .relation r := by
  cases v with
  | relation q => rw [Option.some.inj h]
  | data | choice | sequence | repetition => cases h

/-! ## Identities -/

/-- The identities of a variable and of all that it contains. -/
def ids (v : Variable) : List VarId :=
  v.preorder.map id

/-- The identities in the trees of a list. -/
def idsOf (children : List Variable) : List VarId :=
  children.flatMap ids

theorem preorderAll_eq (children : List Variable) : preorderAll children = children.flatMap preorder := by
  induction children with
  | nil => rfl
  | cons c rest ih => rw [preorderAll, ih, List.flatMap_cons]

theorem map_id_preorderAll (children : List Variable) : (preorderAll children).map id = idsOf children := by
  rw [preorderAll_eq, List.map_flatMap]
  rfl

@[simp] theorem ids_data (i : VarId) (name : String) (type : DataType) (scope : Scope) :
    (data i name type scope).ids = [i] := by
  simp [ids, preorder, id]

@[simp] theorem ids_relation (r : Relation) : (relation r).ids = [r.id] := by
  simp [ids, preorder, id]

@[simp] theorem ids_choice (i : VarId) (name : String) (children : List Variable) :
    (choice i name children).ids = i :: idsOf children := by
  rw [ids, preorder, List.map_cons, map_id_preorderAll, id]

@[simp] theorem ids_sequence (i : VarId) (name : String) (children : List Variable) :
    (sequence i name children).ids = i :: idsOf children := by
  rw [ids, preorder, List.map_cons, map_id_preorderAll, id]

@[simp] theorem ids_repetition (i : VarId) (name : String) (child : Variable) (count : RepeatCount)
    (delimiter : Option BitString) : (repetition i name child count delimiter).ids = i :: child.ids := by
  rw [ids, preorder, List.map_cons, id, ids]

@[simp] theorem idsOf_nil : idsOf [] = [] := rfl

@[simp] theorem idsOf_cons (c : Variable) (rest : List Variable) : idsOf (c :: rest) = c.ids ++ idsOf rest := rfl

@[simp] theorem idsOf_append (xs ys : List Variable) : idsOf (xs ++ ys) = idsOf xs ++ idsOf ys :=
  List.flatMap_append

theorem mem_idsOf {children : List Variable} {i : VarId} : i ∈ idsOf children ↔ ∃ c ∈ children, i ∈ c.ids :=
  List.mem_flatMap

theorem self_mem_preorder (v : Variable) : v ∈ v.preorder := by
  cases v <;> simp [preorder]

theorem id_mem_ids (v : Variable) : v.id ∈ v.ids :=
  List.mem_map.mpr ⟨v, v.self_mem_preorder, rfl⟩

/-- A child of a node with all that it contains belongs to the node. -/
theorem preorder_subset_of_mem {children : List Variable} {c : Variable} (hc : c ∈ children) :
    c.preorder ⊆ preorderAll children := by
  rw [preorderAll_eq]
  exact fun w hw => List.mem_flatMap.mpr ⟨c, hc, hw⟩

theorem preorderAll_mono {xs ys : List Variable} (h : xs ⊆ ys) : preorderAll xs ⊆ preorderAll ys := by
  intro w hw
  rw [preorderAll_eq] at hw
  obtain ⟨c, hc, hw⟩ := List.mem_flatMap.mp hw
  exact preorder_subset_of_mem (h hc) hw

/-- What the children contain belongs to the node. -/
theorem children_subset_preorder (v : Variable) : preorderAll v.children ⊆ v.preorder := by
  cases v with
  | data id name type scope => exact List.nil_subset _
  | relation r => exact List.nil_subset _
  | choice id name children => exact List.subset_cons_self _ _
  | sequence id name children => exact List.subset_cons_self _ _
  | repetition id name child count delimiter =>
    rw [children, preorderAll, preorderAll, List.append_nil, preorder]
    exact List.subset_cons_self _ _

theorem ids_subset_of_mem {children : List Variable} {c : Variable} (hc : c ∈ children) : c.ids ⊆ idsOf children :=
  fun _ hi => mem_idsOf.mpr ⟨c, hc, hi⟩

/-- The identities of a tree are its own and those below it. -/
theorem ids_eq (v : Variable) : v.ids = v.id :: idsOf v.children := by
  cases v with
  | data i name type scope => exact ids_data i name type scope
  | relation r => exact ids_relation r
  | choice i name children => exact ids_choice i name children
  | sequence i name children => exact ids_sequence i name children
  | repetition i name child count delimiter =>
    rw [ids_repetition, children, idsOf_cons, idsOf_nil, List.append_nil]
    rfl

/-- What a tree contains, it contains with all that this contains. -/
theorem preorder_subset {v w : Variable} (h : w ∈ v.preorder) : w.preorder ⊆ v.preorder := by
  have below {children : List Variable} (ih : ∀ c ∈ children, w ∈ c.preorder → w.preorder ⊆ c.preorder)
      (h : w ∈ preorderAll children) : w.preorder ⊆ preorderAll children := by
    rw [preorderAll_eq] at h
    obtain ⟨c, hc, hw⟩ := List.mem_flatMap.mp h
    exact List.Subset.trans (ih c hc hw) (preorder_subset_of_mem hc)
  induction v using Variable.induct with
  | data id name type scope =>
    obtain rfl := List.mem_singleton.mp h
    exact List.Subset.refl _
  | relation r =>
    obtain rfl := List.mem_singleton.mp h
    exact List.Subset.refl _
  | choice id name children ih | sequence id name children ih =>
    rcases List.mem_cons.mp h with rfl | h
    · exact List.Subset.refl _
    · exact List.Subset.trans (below ih h) (List.subset_cons_self _ _)
  | repetition id name child count delimiter ih =>
    rcases List.mem_cons.mp h with rfl | h
    · exact List.Subset.refl _
    · exact List.Subset.trans (ih h) (List.subset_cons_self _ _)

/-- The identities below what a tree contains are below the tree. -/
theorem idsOf_children_subset {v w : Variable} (h : w ∈ v.preorder) : idsOf w.children ⊆ idsOf v.children := by
  have inside {children : List Variable} (h : w ∈ preorderAll children) : idsOf w.children ⊆ idsOf children := by
    rw [preorderAll_eq] at h
    obtain ⟨c, hc, hw⟩ := List.mem_flatMap.mp h
    have own : w.ids ⊆ c.ids := List.map_subset _ (preorder_subset hw)
    rw [ids_eq] at own
    exact List.Subset.trans (List.cons_subset.mp own).2 (ids_subset_of_mem hc)
  cases v with
  | data id name type scope =>
    obtain rfl := List.mem_singleton.mp h
    exact List.Subset.refl _
  | relation r =>
    obtain rfl := List.mem_singleton.mp h
    exact List.Subset.refl _
  | choice id name children | sequence id name children =>
    rcases List.mem_cons.mp h with rfl | h
    · exact List.Subset.refl _
    · exact inside h
  | repetition id name child count delimiter =>
    rcases List.mem_cons.mp h with rfl | h
    · exact List.Subset.refl _
    · exact inside (preorder_subset_of_mem (List.mem_singleton_self child) h)

/-! ## Trees in which no identity occurs twice -/

theorem ids_sublist_idsOf {children : List Variable} {c : Variable} (hc : c ∈ children) :
    c.ids.Sublist (idsOf children) :=
  List.sublist_flatten_of_mem (List.mem_map_of_mem hc)

theorem ids_sublist {v w : Variable} (h : w ∈ v.preorder) : w.ids.Sublist v.ids := by
  have below {children : List Variable} (ih : ∀ c ∈ children, w ∈ c.preorder → w.ids.Sublist c.ids)
      (h : w ∈ preorderAll children) : w.ids.Sublist (idsOf children) := by
    rw [preorderAll_eq] at h
    obtain ⟨c, hc, hw⟩ := List.mem_flatMap.mp h
    exact (ih c hc hw).trans (ids_sublist_idsOf hc)
  induction v using Variable.induct with
  | data id name type scope =>
    obtain rfl := List.mem_singleton.mp h
    exact List.Sublist.refl _
  | relation r =>
    obtain rfl := List.mem_singleton.mp h
    exact List.Sublist.refl _
  | choice id name children ih =>
    rcases List.mem_cons.mp h with rfl | h
    · exact List.Sublist.refl _
    · rw [ids_choice]
      exact (below ih h).cons _
  | sequence id name children ih =>
    rcases List.mem_cons.mp h with rfl | h
    · exact List.Sublist.refl _
    · rw [ids_sequence]
      exact (below ih h).cons _
  | repetition id name child count delimiter ih =>
    rcases List.mem_cons.mp h with rfl | h
    · exact List.Sublist.refl _
    · rw [ids_repetition]
      exact (ih h).cons _

/-- No child of a sequence occurs again in a later child. -/
theorem separate_of_nodup {v : Variable} (hn : v.ids.Nodup) {id : VarId} {name : String} {children : List Variable}
    (h : .sequence id name children ∈ v.preorder) : children.Pairwise fun c d => c.id ∉ d.ids := by
  have own := hn.sublist (ids_sublist h)
  rw [ids_sequence, List.nodup_cons] at own
  exact (List.nodup_flatMap.mp own.2).2.imp fun apart hd => apart (id_mem_ids _) hd

theorem eq_of_id_of_nodup {v x y : Variable} (hn : v.ids.Nodup) (hx : x ∈ v.preorder) (hy : y ∈ v.preorder)
    (he : x.id = y.id) : x = y :=
  List.inj_on_of_nodup_map hn hx hy he

/-! ## Bounds -/

theorem boundsAll_eq (children : List Variable) : boundsAll children = children.map bounds := by
  induction children with
  | nil => rfl
  | cons c rest ih => rw [boundsAll, ih, List.map_cons]

/-- The least length of a choice is at most that of any of its contents. -/
theorem choiceBounds_le {all : List (Nat × Option Nat)} {b : Nat × Option Nat} (hb : b ∈ all) :
    (choiceBounds all).1 ≤ b.1 := by
  fun_induction choiceBounds all with
  | case1 => cases hb
  | case2 x =>
    obtain rfl := List.mem_singleton.mp hb
    exact Nat.le_refl _
  | case3 x rest _ r ih =>
    rcases List.mem_cons.mp hb with rfl | h
    · exact Nat.min_le_left _ _
    · exact Nat.le_trans (Nat.min_le_right _ _) (ih h)

theorem repeated_le_repeated {n m length delimiter : Nat} (h : n ≤ m) :
    repeated n length delimiter ≤ repeated m length delimiter :=
  Nat.add_le_add (Nat.mul_le_mul_left _ h) (Nat.mul_le_mul_left _ (Nat.sub_le_sub_right h 1))

end WireGrammar.Variable
